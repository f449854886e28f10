import Microlisp.Create
/-!
# What every step upholds

A property of states that the primitive steps uphold is upheld by whole calls: a call is
compared with itself, in a state that has the property.
-/
namespace Microlisp

open Prog

/-- The primitive steps uphold `I`, which looks at the objects, the protect stack and the recorded
error, and at the collector's own fields. -/
structure Upheld (c : Config) (I : State → Prop) : Prop where
  writeObj : ∀ a o s, I s → I { s with heap := s.heap.set a o }
  gcAlloc : ∀ size o s, I s → wp Mode.partly (gcAlloc c size o) s (fun _ => I) fun _ => I
  protect : ∀ v s, I s → wp Mode.partly (mlGcProtect c v) s (fun _ => I) fun _ => I
  restore : ∀ n s, I s → I (mlGcRestore n s)
  unprotect : ∀ n s, I s → I (mlGcUnprotect n s)
  setSlot : ∀ n v s, I s → I (gcProtectSet n v s)
  setError : ∀ line column message s, I s → I (mlSetError line column message s)
  clearError : ∀ s, I s → I (mlClearError s)
  others : ∀ s t, I s → t = { s with
    symtab := t.symtab
    evalDepth := t.evalDepth
    printDepth := t.printDepth
    equalDepth := t.equalDepth
    output := t.output
    allocs := t.allocs
    writes := t.writes
    flushes := t.flushes
    pending := t.pending } → I t

/-- The same state, in which `I` holds. -/
def Holding (I : State → Prop) (s t : State) : Prop := s = t ∧ I s

section Upheld
variable {c : Config} {I : State → Prop} {s : State} {α : Type} {m : ML α}

/-- A run that upholds `I`, beside itself. -/
theorem holding_of_wp (h : ∀ s, I s → wp Mode.partly m s (fun _ => I) fun _ => I) :
    Sim halted halted (Holding I) m m := by
  rintro s _ ⟨rfl, hs⟩
  have hm := (h s hs fun _ _ => id).2
  unfold SimAt Run.Sim
  cases hr : (m s).res with
  | ok a =>
    rw [hr] at hm
    exact ⟨rfl, rfl, hm⟩
  | error x =>
    cases x with
    | err e =>
      rw [hr] at hm
      exact .inr (.inr ⟨rfl, rfl, hm⟩)
    | stuck => exact .inl nofun
    | timeout => exact .inl nofun

/-- What such a run ends in. -/
theorem holds_of_ends (h : Sim halted halted (Holding I) m m) (hs : I s) {o : Except Status α} (ho : (m s).Ends o) :
    I (m s).state := by
  have hm := h s s ⟨rfl, hs⟩
  unfold SimAt Run.Sim at hm
  unfold Run.Ends at ho
  rw [ho] at hm
  cases o with
  | ok a => exact hm.2.2
  | error e => exact (hm.resolve_left fun hx => hx e rfl).resolve_left (fun hx => hx e rfl) |>.2.2

variable (h : Upheld c I)
include h

theorem lockstep_upheld : LockstepCall halted halted c c (· = ·) (Holding I) where
  fwrite := rfl
  fflush := rfl
  maxReadDepth := .inl rfl
  maxPrintDepth := .inl rfl
  maxEqualDepth := .inl rfl
  maxEvalDepth := .inl rfl
  symQuote := rfl
  symIf := rfl
  symDefine := rfl
  symLambda := rfl
  symSetBang := rfl
  symLet := rfl
  symLetStar := rfl
  symLetrec := rfl
  symBegin := rfl
  symAnd := rfl
  symOr := rfl
  symCond := rfl
  symElse := rfl
  toplevelEnv := rfl
  readObj := by
    intro a
    apply Sim.bind (Sim.gets fun s t hR => by rw [hR.1])
    intro o
    cases o with
    | some o => exact .pure o
    | none => exact .stuck
  writeObj := by
    intro v o
    apply holding_of_wp
    intro s hs
    apply wp_mono (writeObj_wp False.elim fun _ _ => trivial) _ fun _ _ => False.elim
    rintro _ _ ⟨a, rfl, rfl⟩
    exact h.writeObj a o s hs
  gcAlloc := fun size o => holding_of_wp (h.gcAlloc size o)
  rawAlloc := fun size => holding_of_wp fun s hs => wp_mono rawAllocOrFail_wp
    (fun _ t ht => h.others s t hs (by rw [ht])) fun _ t ht => h.others s t hs (by rw [ht.2.2])
  protect := fun v => holding_of_wp (h.protect v)
  getSlot := by
    rintro n _ rfl
    apply Sim.bind (Sim.gets fun s t hR => by rw [hR.1])
    intro v
    cases v with
    | some v => exact .pure v
    | none => exact .stuck
  nextSlot := by
    rintro n _ rfl
    rfl
  height := by
    rintro s _ ⟨rfl, -⟩
    rfl
  restore := by
    rintro n _ s _ rfl ⟨rfl, hs⟩
    exact ⟨rfl, h.restore n s hs⟩
  unprotect := by
    rintro n s _ ⟨rfl, hs⟩
    exact ⟨rfl, h.unprotect n s hs⟩
  setSlot := by
    rintro n _ v s _ rfl ⟨rfl, hs⟩
    exact ⟨rfl, h.setSlot n v s hs⟩
  setError := by
    rintro l k message s _ ⟨rfl, hs⟩
    exact ⟨rfl, h.setError l k message s hs⟩
  clearError := by
    rintro s _ ⟨rfl, hs⟩
    exact ⟨rfl, h.clearError s hs⟩
  setSymtab := by
    rintro tab s _ ⟨rfl, hs⟩
    exact ⟨rfl, h.others s _ hs rfl⟩
  next := by
    rintro s _ ⟨rfl, -⟩
    rfl
  symtab := by
    rintro s _ ⟨rfl, -⟩
    rfl
  evalDepth := by
    rintro s _ ⟨rfl, -⟩
    rfl
  setEvalDepth := by
    rintro n s _ ⟨rfl, hs⟩
    exact ⟨rfl, h.others s _ hs rfl⟩
  printDepth := by
    rintro s _ ⟨rfl, -⟩
    rfl
  setPrintDepth := by
    rintro n s _ ⟨rfl, hs⟩
    exact ⟨rfl, h.others s _ hs rfl⟩
  equalDepth := by
    rintro s _ ⟨rfl, -⟩
    rfl
  setEqualDepth := by
    rintro n s _ ⟨rfl, hs⟩
    exact ⟨rfl, h.others s _ hs rfl⟩
  writes := by
    rintro s _ ⟨rfl, -⟩
    rfl
  write := by
    rintro bytes s _ ⟨rfl, hs⟩
    exact ⟨rfl, h.others s _ hs rfl⟩
  flushes := by
    rintro s _ ⟨rfl, -⟩
    rfl
  flush := by
    rintro s _ ⟨rfl, hs⟩
    exact ⟨rfl, h.others s _ hs rfl⟩
  push := by
    rintro v s _ ⟨rfl, hs⟩
    exact ⟨rfl, h.others s _ hs rfl⟩
  pop := by
    rintro s _ ⟨rfl, hs⟩
    exact ⟨rfl, h.others s _ hs rfl⟩

/-- However a call ends. -/
theorem Upheld.call (hs : I s) {n : Nat} {source : Option Bytes} {sourceLen : Nat} {wantBytes : Bool}
    {o : Except Status (Option Bytes)}
    (ho : (microlispEval c n source sourceLen wantBytes s).Ends o) :
    I (microlispEval c n source sourceLen wantBytes s).state :=
  holds_of_ends (microlispEval_lockstep (lockstep_upheld h) n source sourceLen wantBytes) hs ho

theorem Upheld.install (hs : I s) {env : Val} {o : Except Status Unit} (ho : (mlPrimitivesInstall c env s).Ends o) :
    I (mlPrimitivesInstall c env s).state :=
  holds_of_ends (mlPrimitivesInstall_lockstep (lockstep_upheld h)) hs ho

end Upheld
end Microlisp
