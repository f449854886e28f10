import Microlisp.Lockstep.Reader
/-!
# Depth limits only cut off

Two calls that differ in the depth limits alone take the same steps, until the one with
the lower limits is stopped by one of them.
-/
namespace Microlisp

open Prog

/-- The same interpreter with other depth limits. -/
def Config.withLimits (c : Config) (read eval print equal : Nat) : Config :=
  { c with maxReadDepth := read, maxEvalDepth := eval, maxPrintDepth := print, maxEqualDepth := equal }

/-- The statuses that report a depth limit. -/
def Status.isDepth : Status → Bool
  | .errReadDepth => true
  | .errEvalDepth => true
  | .errPrintDepth => true
  | .errEqualDepth => true
  | _ => false

/-- Which runs are not compared: those that a depth limit stops, and those that the count
of the model stops. -/
def cutOff : Halt Status → Prop
  | .err e => e.isDepth = true
  | .stuck => False
  | .timeout => True

section Limits
variable {c : Config} {read eval print equal : Nat} {bl br : Halt Status → Prop} {α : Type}

theorem sim_refl (m : ML α) : Sim bl br (· = ·) m m := by
  rintro s _ rfl
  unfold SimAt Run.Sim
  cases (m s).res with
  | ok a => exact ⟨rfl, rfl⟩
  | error x => exact .inr (.inr ⟨rfl, rfl⟩)

theorem gcVisitAll_withLimits (vs : List Val) :
    gcVisitAll (c.withLimits read eval print equal) vs = gcVisitAll c vs := by
  induction vs with
  | nil => rfl
  | cons v vs ih =>
    simp only [gcVisitAll, ih]
    rfl

theorem gcDrainWorklist_withLimits (n : Nat) :
    gcDrainWorklist (c.withLimits read eval print equal) n = gcDrainWorklist c n := by
  induction n with
  | zero => rfl
  | succ n ih => simp only [gcDrainWorklist, gcVisitAll_withLimits, ih]

theorem gcAlloc_withLimits {size : Nat} {o : Obj} :
    gcAlloc (c.withLimits read eval print equal) size o = gcAlloc c size o := by
  simp only [gcAlloc, maybeCollect, mlGcCollect, gcVisitAll_withLimits, gcDrainWorklist_withLimits]
  rfl

/-- Calls under lower and under higher limits go in lockstep, in the same states. -/
theorem lockstep_limits (hread : c.maxReadDepth ≤ read) (heval : c.maxEvalDepth ≤ eval)
    (hprint : c.maxPrintDepth ≤ print)
    (hequal : c.maxEqualDepth ≤ equal) :
    LockstepCall cutOff (fun _ => False) c (c.withLimits read eval print equal) (· = ·) (· = ·) where
  fwrite := rfl
  fflush := rfl
  maxReadDepth := .inr ⟨hread, rfl, trivial⟩
  maxEvalDepth := .inr ⟨heval, rfl, trivial⟩
  maxPrintDepth := .inr ⟨hprint, rfl, trivial⟩
  maxEqualDepth := .inr ⟨hequal, rfl, trivial⟩
  symQuote := rfl
  symIf := rfl
  symDefine := rfl
  symLambda := rfl
  symSetBang := rfl
  symLet := rfl
  symLetStar := rfl
  symLetrec := rfl
  symBegin := rfl
  symAnd := rfl
  symOr := rfl
  symCond := rfl
  symElse := rfl
  toplevelEnv := rfl
  readObj := fun a => sim_refl _
  writeObj := fun v o => sim_refl _
  gcAlloc := fun size o => by
    rw [gcAlloc_withLimits]
    exact sim_refl _
  rawAlloc := fun size => sim_refl (rawAllocOrFail c size)
  protect := fun v => sim_refl (mlGcProtect c v)
  getSlot := by
    rintro n _ rfl
    exact sim_refl _
  nextSlot := by
    rintro n _ rfl
    rfl
  height := by
    rintro s _ rfl
    rfl
  restore := by
    rintro n _ s _ rfl rfl
    rfl
  unprotect := by
    rintro n s _ rfl
    rfl
  setSlot := by
    rintro n _ v s _ rfl rfl
    rfl
  setError := by
    rintro l k message s _ rfl
    rfl
  clearError := by
    rintro s _ rfl
    rfl
  next := by
    rintro s _ rfl
    rfl
  symtab := by
    rintro s _ rfl
    rfl
  setSymtab := by
    rintro tab s _ rfl
    rfl
  evalDepth := by
    rintro s _ rfl
    rfl
  setEvalDepth := by
    rintro n s _ rfl
    rfl
  printDepth := by
    rintro s _ rfl
    rfl
  setPrintDepth := by
    rintro n s _ rfl
    rfl
  equalDepth := by
    rintro s _ rfl
    rfl
  setEqualDepth := by
    rintro n s _ rfl
    rfl
  push := by
    rintro v s _ rfl
    rfl
  pop := by
    rintro s _ rfl
    rfl
  writes := by
    rintro s _ rfl
    rfl
  write := by
    rintro bytes s _ rfl
    rfl
  flushes := by
    rintro s _ rfl
    rfl
  flush := by
    rintro s _ rfl
    rfl

end Limits

/-- Where no depth limit stops a call, higher limits give the same status, result text,
output and state. -/
theorem microlispEval_limits (c : Config) (read eval print equal : Nat) (hread : c.maxReadDepth ≤ read)
    (heval : c.maxEvalDepth ≤ eval) (hprint : c.maxPrintDepth ≤ print) (hequal : c.maxEqualDepth ≤ equal) (n : Nat)
    (s : State) (source : Option Bytes) (sourceLen : Nat) (wantBytes : Bool) (o : Except Status (Option Bytes))
    (ho : (microlispEval c n source sourceLen wantBytes s).Ends o) (hdepth : ∀ e, o = .error e → e.isDepth = false) :
    (microlispEval (c.withLimits read eval print equal) n source sourceLen wantBytes s).Ends o ∧
    (microlispEval (c.withLimits read eval print equal) n source sourceLen wantBytes s).state
      = (microlispEval c n source sourceLen wantBytes s).state := by
  have hsim := microlispEval_lockstep (lockstep_limits hread heval hprint hequal) n source sourceLen wantBytes s s rfl
  have hends := hsim.ends ho (fun e he hcut => by simp [cutOff, hdepth e he] at hcut) fun _ => id
  exact ⟨hends.1, hends.2.symm⟩

theorem microlispEval_limits_quote :
    (microlispEval (Config.created.withLimits 512 2048 2048 2048) 2 (some (ascii "'(a b)")) 6 true .created).Ends
      (.ok (some (ascii "(a b)"))) :=
  (microlispEval_limits .created 512 2048 2048 2048 (by decide) (by decide) (by decide) (by decide) 2 .created
    (some (ascii "'(a b)")) 6 true (.ok (some (ascii "(a b)")))
    (show (microlispEval .created 2 (some (ascii "'(a b)")) 6 true .created).res = .ok (some (ascii "(a b)"))
      by decide +kernel) (by simp)).1

end Microlisp
