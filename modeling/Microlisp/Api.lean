import Microlisp.Eval
import Microlisp.Reader
/-!
# Entry point (`state.c`)

`microlisp_eval` reads the top-level forms of a source and evaluates them in order;
the printed result of the last one is the result of the call.
-/
namespace Microlisp

open Prog

/-- The read-eval loop: the last result, with whether there was a form. Each turn but
the last one takes a byte of the source; `n` is handed to `ml_eval`. -/
def readEvalLoop (c : Config) (n : Nat) : Nat → Reader → Val → Bool → ML (Val × Bool)
  | 0, _, _, _ => timeout
  | turns + 1, r, lastResult, sawForm => do
    let (form, r) ← mlRead c r
    if form = mvEof then
      pure (lastResult, sawForm)
    else
      let sp ← mlGcSavepoint
      mlGcProtect c form
      let lastResult ← (mlEval c n form c.toplevelEnv).andThen (mlGcRestore sp)
      readEvalLoop c n turns r lastResult true

/-- The printed result, when the caller asked for one. -/
def printResult (c : Config) (lastResult : Val) (sawForm wantBytes : Bool) : ML (Option Bytes) := do
  if !sawForm || !wantBytes || lastResult == mvUndef then
    pure none
  else
    let sp ← mlGcSavepoint
    mlGcProtect c lastResult
    let buf ← (mlPrintToAlloc c lastResult true).andThen (mlGcRestore sp)
    pure (some buf)

/-- `microlisp_eval` on a live state. A source of `none` is a `NULL` pointer;
`wantBytes` says whether `out_bytes` is not `NULL`. -/
def microlispEval (c : Config) (n : Nat) (source : Option Bytes) (sourceLen : Nat) (wantBytes : Bool) :
    ML (Option Bytes) := do
  if source.isNone && decide (sourceLen ≠ 0) then
    raise 0 0 (ascii "source pointer is NULL but length is " ++ decimal sourceLen) .errInvalidArg
  else
    modify mlClearError
    let input := (source.getD []).take sourceLen
    let (lastResult, sawForm) ← readEvalLoop c n (input.length + 1) (Reader.start input) mvUndef false
    printResult c lastResult sawForm wantBytes

end Microlisp
