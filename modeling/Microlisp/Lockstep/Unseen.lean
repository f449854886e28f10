import Microlisp.Lockstep.Reader
/-!
# What nothing reads

Nothing that the interpreter does depends on the error that it has recorded, nor on what it has
written, unless the schedule of collections does. So calls stay alike from states that differ
in these alone.
-/
namespace Microlisp

open Prog

/-- The same state with another error on record, and after other output. -/
def State.showing (s : State) (e : MlError) (o : Bytes) : State := { s with lastError := e, output := o }

/-- The states differ in the recorded error and in the output alone, and there as `E` and `O` say. -/
def State.SameButSeen (E : MlError → MlError → Prop) (O : Bytes → Bytes → Prop) (s t : State) : Prop :=
  ∃ e o, E s.lastError e ∧ O s.output o ∧ t = s.showing e o

/-- The programs do the same, whatever is on record. -/
abbrev Unseen (bl br : Halt Status → Prop) (E : MlError → MlError → Prop) (O : Bytes → Bytes → Prop)
    {α : Type} (m m' : ML α) :
    Prop := Sim bl br (State.SameButSeen E O) m m'

section Unseen
variable {bl br : Halt Status → Prop} {E : MlError → MlError → Prop} {O : Bytes → Bytes → Prop} {c : Config}

/-- A reading that does not show it. -/
theorem unseen_gets {α : Type} {g : State → α} (hg : ∀ s e o, g (s.showing e o) = g s) :
    Unseen bl br E O (gets g) (gets g) := by
  apply Sim.gets
  rintro s _ ⟨e, o, -, -, rfl⟩
  exact (hg s e o).symm

theorem unseen_modify {g : State → State}
    (hg : ∀ s e o, g (s.showing e o) = (g s).showing e o ∧ (g s).lastError = s.lastError ∧ (g s).output = s.output) :
    Unseen bl br E O (modify g) (modify g) := by
  apply Sim.modify
  rintro s _ ⟨e, o, he, ho, rfl⟩
  obtain ⟨hshow, herr, hout⟩ := hg s e o
  exact ⟨e, o, by rwa [herr], by rwa [hout], hshow⟩

theorem unseen_mlRawAlloc {size : Nat} : Unseen bl br E O (mlRawAlloc c size) (mlRawAlloc c size) := by
  apply Sim.ite (fun _ => .pure _)
  intro _
  apply (unseen_gets fun _ _ _ => rfl).bind
  intro n
  apply (unseen_modify (by exact fun _ _ _ => ⟨rfl, rfl, rfl⟩)).bind
  exact fun _ => .pure _

theorem unseen_rawAllocOrFail {size : Nat} : Unseen bl br E O (rawAllocOrFail c size) (rawAllocOrFail c size) :=
  unseen_mlRawAlloc.bind fun _ => .ite (fun _ => .pure _) fun _ => .fail _

theorem unseen_readObj {a : Nat} : Unseen bl br E O (readObj a) (readObj a) := by
  apply (unseen_gets fun _ _ _ => rfl).bind
  intro o
  cases o with
  | some o => exact .pure o
  | none => exact .stuck

theorem unseen_noteHeap : Unseen bl br E O noteHeap noteHeap := (unseen_gets fun _ _ _ => rfl).bind fun _ => .emit _ _

theorem unseen_gcPushMark {a : Nat} : Unseen bl br E O (gcPushMark c a) (gcPushMark c a) := by
  have hpush : ∀ room : Bool, Unseen bl br E O (if room then do
      modify fun s => { s with gcMarklist := a :: s.gcMarklist }
      emit (.pushed a)
      pure true
    else do
      emit .noRoom
      pure false) (if room then do
      modify fun s => { s with gcMarklist := a :: s.gcMarklist }
      emit (.pushed a)
      pure true
    else do
      emit .noRoom
      pure false) := by
    intro room
    apply Sim.ite
    · exact fun _ => (unseen_modify (by exact fun _ _ _ => ⟨rfl, rfl, rfl⟩)).bind fun _ =>
        (Sim.emit _ _).bind fun _ => .pure _
    · exact fun _ => (Sim.emit _ _).bind fun _ => .pure _
  apply (unseen_gets fun _ _ _ => rfl).bind
  intro count
  apply (unseen_gets fun _ _ _ => rfl).bind
  intro cap
  apply Sim.ite
  · intro _
    apply unseen_mlRawAlloc.bind
    intro granted
    apply Sim.ite
    · exact fun _ => (unseen_modify (by exact fun _ _ _ => ⟨rfl, rfl, rfl⟩)).bind fun _ => (Sim.pure _).bind hpush
    · exact fun _ => (Sim.pure _).bind hpush
  · exact fun _ => (Sim.pure _).bind hpush

theorem unseen_gcVisit {v : Val} : Unseen bl br E O (gcVisit c v) (gcVisit c v) := by
  unfold gcVisit
  split
  · exact .pure _
  · apply (unseen_gets fun _ _ _ => rfl).bind
    intro o
    cases o with
    | none => exact .stuck
    | some o =>
      apply Sim.ite (fun _ => .pure _)
      exact fun _ => (unseen_modify (by exact fun _ _ _ => ⟨rfl, rfl, rfl⟩)).bind fun _ => unseen_gcPushMark
  · exact .pure _

theorem unseen_gcVisitAll (vs : List Val) : Unseen bl br E O (gcVisitAll c vs) (gcVisitAll c vs) := by
  induction vs with
  | nil => exact .pure _
  | cons v vs ih => exact unseen_gcVisit.bind fun _ => .ite (fun _ => ih) fun _ => .pure _

theorem unseen_gcDrainWorklist (n : Nat) : Unseen bl br E O (gcDrainWorklist c n) (gcDrainWorklist c n) := by
  induction n with
  | zero => exact .timeout
  | succ n ih =>
    apply (unseen_gets fun _ _ _ => rfl).bind
    intro marklist
    cases marklist with
    | nil => exact .pure _
    | cons a rest =>
      apply (unseen_modify (by exact fun _ _ _ => ⟨rfl, rfl, rfl⟩)).bind
      intro _
      apply unseen_readObj.bind
      intro o
      exact (unseen_gcVisitAll _).bind fun _ => .ite (fun _ => ih) fun _ => .pure _

theorem unseen_mlGcCollect : Unseen bl br E O (mlGcCollect c) (mlGcCollect c) := by
  have hnote : Unseen bl br E O notePending notePending :=
    (unseen_gets fun _ _ _ => rfl).bind fun _ => .ite (fun _ => .emit _ _) fun _ => .pure _
  have hend : ∀ ok : Bool, Unseen bl br E O (if ok then do
      modify sweep
      modify fun s => { s with gcThreshold := nextThreshold s.gcLiveObjects, gcKept := some s.heap.cells.length }
      noteHeap
      notePending
    else do
      modify gcClearAllMarks
      modify fun s => { s with gcMarklist := [] }) (if ok then do
      modify sweep
      modify fun s => { s with gcThreshold := nextThreshold s.gcLiveObjects, gcKept := some s.heap.cells.length }
      noteHeap
      notePending
    else do
      modify gcClearAllMarks
      modify fun s => { s with gcMarklist := [] }) := by
    intro ok
    apply Sim.ite
    · intro _
      apply (unseen_modify (by exact fun _ _ _ => ⟨rfl, rfl, rfl⟩)).bind
      intro _
      apply (unseen_modify (by exact fun _ _ _ => ⟨rfl, rfl, rfl⟩)).bind
      exact fun _ => unseen_noteHeap.bind fun _ => hnote
    · intro _
      apply (unseen_modify (by exact fun _ _ _ => ⟨rfl, rfl, rfl⟩)).bind
      exact fun _ => unseen_modify fun _ _ _ => ⟨rfl, rfl, rfl⟩
  apply (unseen_modify (by exact fun _ _ _ => ⟨rfl, rfl, rfl⟩)).bind
  intro _
  apply (unseen_gets fun _ _ _ => rfl).bind
  intro protect
  apply (unseen_gets fun _ _ _ => rfl).bind
  intro objects
  apply (unseen_gcVisitAll _).bind
  intro rootsOk
  apply Sim.ite
  · exact fun _ => (unseen_gcDrainWorklist _).bind hend
  · exact fun _ => hend false

theorem unseen_gcAlloc (hdue : ∀ s t, s.SameButSeen E O t → c.collectDue s = c.collectDue t) {size : Nat} {o : Obj} :
    Unseen bl br E O (gcAlloc c size o) (gcAlloc c size o) := by
  have hmaybe : Unseen bl br E O (maybeCollect c) (maybeCollect c) :=
    (Sim.gets hdue).bind fun _ => .ite (fun _ => unseen_mlGcCollect) fun _ => .pure _
  apply hmaybe.bind
  intro _
  apply unseen_rawAllocOrFail.bind
  intro _
  apply (unseen_gets fun _ _ _ => rfl).bind
  intro a
  apply (unseen_modify (by exact fun _ _ _ => ⟨rfl, rfl, rfl⟩)).bind
  exact fun _ => unseen_noteHeap.bind fun _ => .pure _

theorem unseen_mlGcProtect {v : Val} : Unseen bl br E O (mlGcProtect c v) (mlGcProtect c v) := by
  have hpush : Unseen bl br E O (modify fun s => { s with gcProtect := s.gcProtect ++ [v] })
      (modify fun s => { s with gcProtect := s.gcProtect ++ [v] }) := unseen_modify
        (by exact fun _ _ _ => ⟨rfl, rfl, rfl⟩)
  apply (unseen_gets fun _ _ _ => rfl).bind
  intro count
  apply (unseen_gets fun _ _ _ => rfl).bind
  intro cap
  apply Sim.ite
  · intro _
    apply unseen_rawAllocOrFail.bind
    intro _
    exact (unseen_modify (by exact fun _ _ _ => ⟨rfl, rfl, rfl⟩)).bind fun _ => hpush
  · exact fun _ => hpush

/-- Calls go in lockstep, whatever the schedule, as long as it does not depend on what differs. -/
theorem lockstep_unseen (hE : ∀ e, E e e) (hO : ∀ a b w, O a b → O (a ++ w) (b ++ w))
    (hdue : ∀ s t, s.SameButSeen E O t → c.collectDue s = c.collectDue t) :
    LockstepCall bl br c c (· = ·) (State.SameButSeen E O) where
  fwrite := rfl
  fflush := rfl
  maxReadDepth := .inl rfl
  maxPrintDepth := .inl rfl
  maxEqualDepth := .inl rfl
  maxEvalDepth := .inl rfl
  symQuote := rfl
  symIf := rfl
  symDefine := rfl
  symLambda := rfl
  symSetBang := rfl
  symLet := rfl
  symLetStar := rfl
  symLetrec := rfl
  symBegin := rfl
  symAnd := rfl
  symOr := rfl
  symCond := rfl
  symElse := rfl
  toplevelEnv := rfl
  readObj := fun _ => unseen_readObj
  writeObj := by
    intro v o
    cases v with
    | obj a => exact (unseen_modify (by exact fun _ _ _ => ⟨rfl, rfl, rfl⟩)).bind fun _ => unseen_noteHeap
    | _ => exact .stuck
  gcAlloc := fun _ _ => unseen_gcAlloc hdue
  rawAlloc := fun _ => unseen_rawAllocOrFail
  protect := fun _ => unseen_mlGcProtect
  getSlot := by
    rintro n _ rfl
    apply (unseen_gets fun _ _ _ => rfl).bind
    intro v
    cases v with
    | some v => exact .pure v
    | none => exact .stuck
  nextSlot := by
    rintro n _ rfl
    rfl
  height := by
    rintro s _ ⟨e, o, he, ho, rfl⟩
    rfl
  restore := by
    rintro n _ s _ rfl ⟨e, o, he, ho, rfl⟩
    exact ⟨e, o, he, ho, rfl⟩
  unprotect := by
    rintro n s _ ⟨e, o, he, ho, rfl⟩
    exact ⟨e, o, he, ho, rfl⟩
  setSlot := by
    rintro n _ v s _ rfl ⟨e, o, he, ho, rfl⟩
    exact ⟨e, o, he, ho, rfl⟩
  setError := by
    rintro line column message s _ ⟨e, o, he, ho, rfl⟩
    exact ⟨_, o, hE _, ho, rfl⟩
  clearError := by
    rintro s _ ⟨e, o, he, ho, rfl⟩
    exact ⟨_, o, hE _, ho, rfl⟩
  setSymtab := by
    rintro tab s _ ⟨e, o, he, ho, rfl⟩
    exact ⟨e, o, he, ho, rfl⟩
  next := by
    rintro s _ ⟨e, o, he, ho, rfl⟩
    rfl
  symtab := by
    rintro s _ ⟨e, o, he, ho, rfl⟩
    rfl
  evalDepth := by
    rintro s _ ⟨e, o, he, ho, rfl⟩
    rfl
  setEvalDepth := by
    rintro n s _ ⟨e, o, he, ho, rfl⟩
    exact ⟨e, o, he, ho, rfl⟩
  printDepth := by
    rintro s _ ⟨e, o, he, ho, rfl⟩
    rfl
  setPrintDepth := by
    rintro n s _ ⟨e, o, he, ho, rfl⟩
    exact ⟨e, o, he, ho, rfl⟩
  equalDepth := by
    rintro s _ ⟨e, o, he, ho, rfl⟩
    rfl
  setEqualDepth := by
    rintro n s _ ⟨e, o, he, ho, rfl⟩
    exact ⟨e, o, he, ho, rfl⟩
  writes := by
    rintro s _ ⟨e, o, he, ho, rfl⟩
    rfl
  write := by
    rintro bytes s _ ⟨e, o, he, ho, rfl⟩
    exact ⟨e, _, he, hO _ _ bytes ho, rfl⟩
  flushes := by
    rintro s _ ⟨e, o, he, ho, rfl⟩
    rfl
  flush := by
    rintro s _ ⟨e, o, he, ho, rfl⟩
    exact ⟨e, o, he, ho, rfl⟩
  push := by
    rintro v s _ ⟨e, o, he, ho, rfl⟩
    exact ⟨e, o, he, ho, rfl⟩
  pop := by
    rintro s _ ⟨e, o, he, ho, rfl⟩
    exact ⟨e, o, he, ho, rfl⟩

end Unseen
end Microlisp
