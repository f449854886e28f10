import Microlisp.Repl
/-!
# The command line (`main.c`)

`main` looks at its arguments one after the other, then runs one thing: an expression, a
script, or the loop on its standard input. Its trace is what it says and what it runs.
-/
namespace Microlisp.CommandLine

open Prog

/-- A stream to read, with whether an error comes after its bytes. -/
structure Stream where
  bytes : Bytes
  fails : Bool

/-- What the process runs in. -/
structure Host where
  /-- `fopen(path, "rb")`. -/
  fopen : Bytes → Option Stream
  stdin : Stream
  isTty : Bool
  /-- Do `malloc` and `realloc` find this many bytes? -/
  malloc : Nat → Bool
  /-- Why `microlisp_state_create` fails, if it does. -/
  createFails : Option Status

/-- What may be run: an expression, or the script at a path. -/
inductive Operand where
  | expr (source : Bytes)
  | script (path : Bytes)
deriving DecidableEq

inductive Act where
  /-- Usage or version, on `stdout`. -/
  | prints (text : Bytes)
  /-- On `stderr`. -/
  | complains (text : Bytes)
  | runs (o : Operand)
  | repl
deriving DecidableEq

/-- A run of `main`, in the state that `microlisp_state_create` makes. -/
abbrev Cli := Prog State Status Act

/-! ## Input -/

/-- `open_input`. -/
def openInput (w : Host) (path : Bytes) : Option Stream := if path = [ch '-'] then some w.stdin else w.fopen path

/-- Each turn but the last one fills the buffer, of capacity `cap`. The codes are those of
`slurp`: 1 for a read error, 2 for want of memory. -/
def slurpLoop (w : Host) (fails : Bool) : Nat → Nat → Bytes → Bytes → Cli (Except Nat Bytes)
  | 0, _, _, _ => timeout
  | turns + 1, cap, buf, rest =>
    let room := cap - buf.length
    let got := rest.take room
    if got.length < room then
      pure (if fails then .error 1 else .ok (buf ++ got))
    else if cap > sizeMax / 2 || !w.malloc (cap * 2) then
      pure (.error 2)
    else
      slurpLoop w fails turns (cap * 2) (buf ++ got) (rest.drop room)

def slurp (w : Host) (input : Stream) : Cli (Except Nat Bytes) :=
  if w.malloc 4096 then slurpLoop w input.fails (input.bytes.length + 1) 4096 [] input.bytes else pure (.error 2)

/-- What `fgets` delivers of a stream: an error in a line loses the line. -/
def wholeLines : Nat → Bytes → Bytes
  | 0, _ => []
  | turns + 1, bs =>
    let line := (takeLine 4095 bs).1
    if line.getLast? = some (ch '\n') ∨ line.length = 4095 then line ++ wholeLines turns (takeLine 4095 bs).2 else []

def Stream.lines (input : Stream) : Bytes :=
  if input.fails then wholeLines input.bytes.length input.bytes else input.bytes

/-! ## What is run -/

def exitCodeFor : Except Status Unit → Nat
  | .ok _ => 0
  | .error .errIo => 2
  | .error _ => 1

def evalSource (c : Config) (n : Nat) (source : Bytes) (printResult : Bool) : Cli Nat := do
  match ← calling (microlispEval c n (some source) source.length true) with
  | .error st =>
    let message ← gets fun s => s.lastError.message
    emit (.complains (ascii "microlisp: error (" ++ statusString st ++ ascii "): " ++ cString message ++ [ch '\n']))
    pure (exitCodeFor (.error st))
  | .ok result =>
    let bytes := result.getD []
    if printResult && bytes ≠ [] then
      let written ← calling do
        stateOutputSink c () bytes
        stateOutputSink c () [ch '\n']
        stateOutputFlush c
      pure (match written with
        | .ok _ => 0
        | .error _ => 2)
    else
      pure 0

/-- `stdout` is the state's output stream too. -/
def runRepl (c : Config) (n : Nat) (w : Host) : Cli Nat := do
  let prompt := if w.isTty then some (ascii "microlisp> ") else none
  let stdout ← gets State.output
  match ← calling (microlispRepl c n prompt w.stdin.lines stdout) with
  | .error st => pure (exitCodeFor (.error st))
  | .ok (status, stdout) =>
    modify fun s => { s with output := stdout }
    pure (exitCodeFor status)

def runScriptFile (c : Config) (n : Nat) (w : Host) (path : Bytes) : Cli Nat :=
  match openInput w path with
  | none => do
    emit (.complains (ascii "microlisp: cannot open `" ++ path ++ ascii "`\n"))
    pure 2
  | some input => do
    match ← slurp w input with
    | .error _ =>
      emit (.complains (ascii "microlisp: read error\n"))
      pure 2
    | .ok bytes => evalSource c n bytes false

/-! ## Arguments -/

/-- The variables of `main` after its loop over the arguments. -/
structure Args where
  i : Nat
  evalExpr : Option Bytes
  scriptPath : Option Bytes
  runInteractive : Bool

/-- Why the loop returns. -/
inductive Stop where
  | help
  | version
  | noArgument
  | unknown (a : Bytes)

/-- The loop, over the arguments from the `i`-th on. -/
def argLoop : List Bytes → Args → Except Stop Args
  | [], args => .ok args
  | a :: rest, args =>
    if a = ascii "--" then .ok { args with i := args.i + 1 }
    else if a = ascii "-h" ∨ a = ascii "--help" then .error .help
    else if a = ascii "-V" ∨ a = ascii "--version" then .error .version
    else if a = ascii "-e" then
      match rest with
      | [] => .error .noArgument
      | expr :: rest => argLoop rest { args with i := args.i + 2, evalExpr := some expr, runInteractive := false }
    else if a[0]? = some (ch '-') ∧ a[1]?.isSome then .error (.unknown a)
    else .ok { args with scriptPath := some a, runInteractive := false }

def usage : Bytes :=
  ascii "Usage:\n" ++ ascii "  microlisp                Interactive REPL on stdin\n" ++
    ascii "  microlisp FILE           Run FILE as a script\n" ++
    ascii "  microlisp -              Run stdin as a script\n" ++
    ascii "  microlisp -e EXPR        Evaluate EXPR and print its result\n" ++
    ascii "  microlisp --help | -h\n" ++ ascii "  microlisp --version | -V\n"

def stopped : Stop → Cli Nat
  | .help => do
    emit (.prints usage)
    pure 0
  | .version => do
    emit (.prints (ascii "microlisp 0.1.5\n"))
    pure 0
  | .noArgument => do
    emit (.complains (ascii "microlisp: -e requires an argument\n"))
    emit (.complains usage)
    pure 2
  | .unknown a => do
    emit (.complains (ascii "microlisp: unknown option `" ++ a ++ ascii "`\n"))
    emit (.complains usage)
    pure 2

/-- Run what the arguments ask for. -/
def dispatch (c : Config) (n : Nat) (w : Host) (args : Args) : Cli Nat :=
  match args.evalExpr, args.scriptPath with
  | some expr, _ => do
    emit (.runs (.expr expr))
    evalSource c n expr true
  | none, some path => do
    emit (.runs (.script path))
    runScriptFile c n w path
  | none, none =>
    if args.runInteractive then do
      emit .repl
      runRepl c n w
    else
      pure 0

/-- `argv` has `argc` arguments. -/
def main (c : Config) (n : Nat) (w : Host) (argv : List Bytes) : Cli Nat :=
  match argLoop (argv.drop 1) ⟨1, none, none, true⟩ with
  | .error stop => stopped stop
  | .ok args =>
    if (args.i : Int) < argv.length - 1 then do
      emit (.complains (ascii "microlisp: extra arguments after script path\n"))
      pure 2
    else
      match w.createFails with
      | some st => do
        emit (.complains (ascii "microlisp: cannot create interpreter state (" ++ statusString st ++ ascii ")\n"))
        pure 1
      | none => dispatch c n w args

/-! ## What is given -/

/-- What the arguments after `argv[0]` give to be run: the expression of each `-e`, and every
argument from the first that is no option on, or after `--`. -/
def operands : List Bytes → List Operand
  | [] => []
  | a :: rest =>
    if a = ascii "--" then rest.map .script
    else if a = ascii "-e" then
      match rest with
      | [] => []
      | expr :: rest => .expr expr :: operands rest
    else (a :: rest).map .script

/-- The arguments after `--`. -/
def afterDashes : List Bytes → List Bytes
  | [] => []
  | a :: rest =>
    if a = ascii "--" then rest
    else if a = ascii "-e" then
      match rest with
      | [] => []
      | _ :: rest => afterDashes rest
    else []

/-- What a run of `main` has run, in order. -/
def ran (trace : List Act) : List Operand := trace.filterMap fun
  | .runs o => some o
  | _ => none

/-- What is given is what gets run, and the loop is started only where nothing is given. -/
def Honoured (argv : List Bytes) (trace : List Act) : Prop :=
  ran trace = operands (argv.drop 1) ∧ (.repl ∈ trace → operands (argv.drop 1) = [])

/-! ## The loop over the arguments -/

section Arguments
variable {l : List Bytes} {a b : Args}

theorem operands_dashes {rest : List Bytes} : operands (ascii "--" :: rest) = rest.map .script := by
  unfold operands
  rw [if_pos rfl]

theorem afterDashes_dashes {rest : List Bytes} : afterDashes (ascii "--" :: rest) = rest := by
  unfold afterDashes
  rw [if_pos rfl]

theorem operands_expr {expr : Bytes} {rest : List Bytes} :
    operands (ascii "-e" :: expr :: rest) = .expr expr :: operands rest := by
  conv_lhs => unfold operands
  rw [if_neg (by decide), if_pos rfl]

theorem afterDashes_expr {expr : Bytes} {rest : List Bytes} :
    afterDashes (ascii "-e" :: expr :: rest) = afterDashes rest := by
  conv_lhs => unfold afterDashes
  rw [if_neg (by decide), if_pos rfl]

theorem operands_path {path : Bytes} {rest : List Bytes} (hdashes : path ≠ ascii "--") (hexpr : path ≠ ascii "-e") :
    operands (path :: rest) = (path :: rest).map .script := by
  unfold operands
  rw [if_neg hdashes, if_neg hexpr]

theorem afterDashes_path {path : Bytes} {rest : List Bytes} (hdashes : path ≠ ascii "--") (hexpr : path ≠ ascii "-e") :
    afterDashes (path :: rest) = [] := by
  unfold afterDashes
  rw [if_neg hdashes, if_neg hexpr]

/-- When the loop is done: the arguments are the expressions of `-e`, and a rest that is not looked
at, where the last expression and the first argument of the rest are kept. -/
theorem argLoop_cases (h : argLoop l a = .ok b) :
    ∃ (exprs rest : List Bytes), operands l = exprs.map .expr ++ rest.map .script ∧
      b.evalExpr = exprs.getLast?.or a.evalExpr ∧
      b.i + rest.length = a.i + l.length ∧
      (afterDashes l = rest ∧ b.scriptPath = a.scriptPath ∧ b.runInteractive = (a.runInteractive && exprs.isEmpty) ∨
        afterDashes l = [] ∧ ∃ path more, rest = path :: more ∧ b.scriptPath = some path) := by
  induction l, a using argLoop.induct with
  | case1 a =>
    cases h
    exact ⟨[], [], rfl, rfl, rfl, .inl ⟨rfl, rfl, (Bool.and_true _).symm⟩⟩
  | case2 rest a =>
    unfold argLoop at h
    rw [if_pos rfl] at h
    cases h
    refine ⟨[], rest, operands_dashes, rfl, ?_, .inl ⟨afterDashes_dashes, rfl, (Bool.and_true _).symm⟩⟩
    simp only [List.length_cons]
    omega
  | case3 path rest a hdashes hhelp =>
    unfold argLoop at h
    rw [if_neg hdashes, if_pos hhelp] at h
    cases h
  | case4 path rest a hdashes hhelp hversion =>
    unfold argLoop at h
    rw [if_neg hdashes, if_neg hhelp, if_pos hversion] at h
    cases h
  | case5 => cases h
  | case6 a expr rest _ _ _ ih =>
    obtain ⟨exprs, tail, hoperands, hlast, hi, hrest⟩ := ih h
    refine ⟨expr :: exprs, tail, ?_, ?_, ?_, ?_⟩
    · rw [operands_expr, hoperands]
      rfl
    · rw [hlast, List.getLast?_cons]
      cases exprs.getLast? <;> rfl
    · simp only [List.length_cons] at hi ⊢
      omega
    · rw [afterDashes_expr]
      refine hrest.imp_left fun ⟨hafter, hpath, hrun⟩ => ⟨hafter, hpath, ?_⟩
      rw [hrun, List.isEmpty_cons, Bool.and_false, Bool.false_and]
  | case7 path rest a hdashes hhelp hversion hexpr hunknown =>
    unfold argLoop at h
    rw [if_neg hdashes, if_neg hhelp, if_neg hversion, if_neg hexpr, if_pos hunknown] at h
    cases h
  | case8 path rest a hdashes hhelp hversion hexpr hknown =>
    unfold argLoop at h
    rw [if_neg hdashes, if_neg hhelp, if_neg hversion, if_neg hexpr, if_neg hknown] at h
    cases h
    exact ⟨[], path :: rest, operands_path hdashes hexpr, rfl, rfl,
      .inr ⟨afterDashes_path hdashes hexpr, path, rest, rfl, rfl⟩⟩

end Arguments
/-! ## What a run says -/

/-- `m` says nothing but complaints, and what it returns meets `Q`. -/
def Complains {α : Type} (m : Cli α) (Q : α → Prop) : Prop :=
  Triple (Mode.noting fun e => ∃ text, e = Act.complains text) (fun _ => True) m (fun a _ => Q a) (fun _ _ => False)

namespace Complains

variable {α β : Type} {m m' : Cli α} {f : α → Cli β} {Q : α → Prop} {U : β → Prop}

theorem pure {a : α} (h : Q a) : Complains (Pure.pure a : Cli α) Q := Triple.pure fun _ _ => h

theorem timeout : Complains (Prog.timeout : Cli α) Q := Triple.timeout fun _ _ => id

theorem bind (h : Complains m Q) (hf : ∀ a, Q a → Complains (f a) U) : Complains (m >>= f) U :=
  Triple.bind h fun a s hq => hf a hq s trivial

theorem look {g : State → α} (hf : ∀ a, Complains (f a) U) : Complains (Prog.gets g >>= f) U :=
  bind (Q := fun _ => True) (Triple.gets fun _ _ => trivial) fun a _ => hf a

theorem complain {text : Bytes} {f : Unit → Cli β} (hf : Complains (f ()) U) :
    Complains (emit (.complains text) >>= f) U :=
  bind (Q := fun _ => True) (Triple.emit fun _ _ _ => ⟨⟨text, rfl⟩, trivial⟩) fun _ _ => hf

theorem ite {b : Prop} [Decidable b] (h : b → Complains m Q) (h' : ¬ b → Complains m' Q) :
    Complains (if b then m else m') Q :=
  Triple.ite h h'

/-- What is called says nothing here. -/
theorem called {ω : Type} {m : Prog State Status ω α} {f : Except Status α → Cli β} (hf : ∀ r, Complains (f r) U) :
    Complains (calling m >>= f) U := by
  apply bind (Q := fun _ => True) _ fun r _ => hf r
  intro s _ _
  unfold calling
  rcases (m s).res with (_ | _ | _) | _
  · exact ⟨nofun, trivial⟩
  · exact ⟨nofun, id⟩
  · exact ⟨nofun, id⟩
  · exact ⟨nofun, trivial⟩

end Complains

section Runs
variable {c : Config} {n : Nat} {w : Host} {s : State}

theorem exitCodeFor_le (r : Except Status Unit) : exitCodeFor r ≤ 2 := by
  unfold exitCodeFor
  split <;> decide

theorem evalSource_complains {source : Bytes} {printResult : Bool} :
    Complains (evalSource c n source printResult) (· ≤ 2) := by
  apply Complains.called
  intro r
  cases r with
  | error st => exact .look fun _ => .complain (.pure (exitCodeFor_le _))
  | ok result =>
    apply Complains.ite
    · intro _
      apply Complains.called
      intro written
      apply Complains.pure
      cases written with
      | ok _ => exact Nat.zero_le _
      | error _ => exact Nat.le_refl _
    · exact fun _ => .pure (Nat.zero_le _)

/-- `slurp` returns the whole of a stream, if anything. -/
theorem slurp_complains {input : Stream} :
    Complains (slurp w input) (fun r => ∀ bytes, r = .ok bytes → bytes = input.bytes) := by
  have hloop : ∀ turns cap buf rest, buf ++ rest = input.bytes →
      Complains (slurpLoop w input.fails turns cap buf rest) (fun r => ∀ bytes, r = .ok bytes →
        bytes = input.bytes) := by
    intro turns
    induction turns with
    | zero => exact fun _ _ _ _ => .timeout
    | succ turns ih =>
      intro cap buf rest h
      apply Complains.ite
      · intro hshort
        apply Complains.pure
        rintro bytes hbytes
        -- a short count: all that was left has been read
        have hall : rest.take (cap - buf.length) = rest := by
          rw [List.length_take] at hshort
          exact List.take_of_length_le (by omega)
        rw [hall, h] at hbytes
        split at hbytes <;> cases hbytes
        rfl
      · intro _
        apply Complains.ite
        · exact fun _ => .pure nofun
        · intro _
          apply ih
          rw [List.append_assoc, List.take_append_drop, h]
  exact .ite (fun _ => hloop _ _ _ _ rfl) fun _ => .pure nofun

theorem runScriptFile_complains {path : Bytes} : Complains (runScriptFile c n w path) (· ≤ 2) := by
  unfold runScriptFile
  cases openInput w path with
  | none => exact .complain (.pure (Nat.le_refl _))
  | some input =>
    apply slurp_complains.bind
    intro r _
    cases r with
    | error _ => exact .complain (.pure (Nat.le_refl _))
    | ok bytes => exact evalSource_complains

theorem runRepl_complains : Complains (runRepl c n w) (· ≤ 2) := by
  apply Complains.look
  intro stdout
  apply Complains.called
  intro r
  rcases r with st | ⟨status, stdout⟩
  · exact .pure (exitCodeFor_le _)
  · exact Complains.bind (Q := fun _ => True) (Triple.modify fun _ _ => trivial) fun _ _ => .pure (exitCodeFor_le _)

/-- What `main` runs once it has a state. -/
def planned (args : Args) : List Act :=
  match args.evalExpr, args.scriptPath with
  | some expr, _ => [.runs (.expr expr)]
  | none, some path => [.runs (.script path)]
  | none, none => if args.runInteractive then [.repl] else []

theorem emit_trace {e : Act} {m : Cli Nat} (h : Complains m (· ≤ 2)) (s : State) :
    ∃ l, (∀ e ∈ l, ∃ text, e = .complains text) ∧ ((emit e >>= fun _ => m) s).trace = [e] ++ l :=
  ⟨(m s).trace, (h s trivial fun _ _ => id).1, rfl⟩

theorem dispatch_trace (args : Args) (s : State) :
    ∃ l, (∀ e ∈ l, ∃ text, e = .complains text) ∧ (dispatch c n w args s).trace = planned args ++ l := by
  unfold dispatch planned
  cases args.evalExpr with
  | some expr => exact emit_trace evalSource_complains s
  | none =>
    cases args.scriptPath with
    | some path => exact emit_trace runScriptFile_complains s
    | none =>
      cases args.runInteractive with
      | true => exact emit_trace runRepl_complains s
      | false => exact ⟨[], nofun, rfl⟩

/-- Complaints run nothing. -/
theorem ran_append {l l' : List Act} (h : ∀ e ∈ l', ∃ text, e = .complains text) : ran (l ++ l') = ran l := by
  have hnone : ran l' = [] := by
    unfold ran
    rw [List.filterMap_eq_nil_iff]
    intro e he
    obtain ⟨text, rfl⟩ := h e he
    rfl
  unfold ran at hnone ⊢
  rw [List.filterMap_append, hnone, List.append_nil]

theorem repl_mem_append {l l' : List Act} (h : ∀ e ∈ l', ∃ text, e = .complains text) :
    Act.repl ∈ l ++ l' ↔ Act.repl ∈ l := by
  refine List.mem_append.trans ⟨fun hmem => hmem.resolve_right fun hmem => ?_, .inl⟩
  obtain ⟨text, htext⟩ := h _ hmem
  cases htext

end Runs

/-! ## Exit codes -/

/-- `main` returns 0, 1 or 2. -/
theorem main_code (c : Config) (n : Nat) (w : Host) (argv : List Bytes) :
    Triple Mode.partly (fun _ => True) (main c n w argv) (fun k _ => k ≤ 2) (fun _ _ => False) := by
  have hrun : ∀ {e : Act} {m : Cli Nat}, Complains m (· ≤ 2) →
      Triple Mode.partly (fun _ => True) (emit e >>= fun _ => m) (fun k _ => k ≤ 2) (fun _ _ => False) := by
    intro e m h
    apply Triple.seq (Triple.emit fun _ _ _ => ⟨trivial, trivial⟩)
    exact fun _ s _ => wp_weaken (h s trivial) (fun _ h => h) (fun _ _ => trivial) id id
  have husage : Complains (emit (.complains usage) >>= fun _ => pure 2 : Cli Nat) (· ≤ 2) :=
    .complain (.pure (Nat.le_refl _))
  unfold main
  cases argLoop (argv.drop 1) ⟨1, none, none, true⟩ with
  | error stop =>
    cases stop with
    | help => exact hrun (.pure (Nat.zero_le _))
    | version => exact hrun (.pure (Nat.zero_le _))
    | noArgument => exact hrun husage
    | unknown a => exact hrun husage
  | ok args =>
    apply Triple.ite
    · exact fun _ => hrun (.pure (Nat.le_refl _))
    intro _
    cases w.createFails with
    | some st => exact hrun (.pure (by decide))
    | none =>
      unfold dispatch
      dsimp only
      cases args.evalExpr with
      | some expr => exact hrun evalSource_complains
      | none =>
        cases args.scriptPath with
        | some path => exact hrun runScriptFile_complains
        | none => exact .ite (fun _ => hrun runRepl_complains) fun _ => .pure fun _ _ => Nat.zero_le _

/-! ## What is dropped -/

section Dropped
variable {c : Config} {n : Nat} {w : Host} {s : State} {argv : List Bytes}

/-- A run that neither shows the usage or the version nor returns 2 has taken its arguments, and
runs what they ask for. -/
theorem main_cases (hcreate : w.createFails = none) (hprints : ∀ text, .prints text ∉ (main c n w argv s).trace)
    (hcode : ¬ (main c n w argv s).Ends (.ok 2)) :
    ∃ args, argLoop (argv.drop 1) ⟨1, none, none, true⟩ = .ok args ∧ ¬ (args.i : Int) < argv.length - 1 ∧
      (main c n w argv s).trace = (dispatch c n w args s).trace := by
  unfold main at hprints hcode ⊢
  cases hloop : argLoop (argv.drop 1) ⟨1, none, none, true⟩ with
  | error stop =>
    rw [hloop] at hprints hcode
    cases stop with
    | help => exact absurd (List.mem_singleton.2 rfl) (hprints usage)
    | version => exact absurd (List.mem_singleton.2 rfl) (hprints (ascii "microlisp 0.1.5\n"))
    | noArgument => exact absurd rfl hcode
    | unknown a => exact absurd rfl hcode
  | ok args =>
    rw [hloop] at hcode
    dsimp only at hcode ⊢
    by_cases hextra : (args.i : Int) < argv.length - 1
    · rw [if_pos hextra] at hcode
      exact absurd rfl hcode
    · rw [if_neg hextra, hcreate]
      exact ⟨args, rfl, hextra, rfl⟩

/-- What a run plans is what its arguments give exactly when they give one thing at most, and
nothing stands after `--`. -/
theorem planned_iff {args : Args} (hloop : argLoop (argv.drop 1) ⟨1, none, none, true⟩ = .ok args)
    (hextra : ¬ (args.i : Int) < argv.length - 1) :
    Honoured argv (planned args) ↔ (operands (argv.drop 1)).length ≤ 1 ∧ afterDashes (argv.drop 1) = [] := by
  obtain ⟨exprs, rest, hoperands, hexpr, hi, hrest⟩ := argLoop_cases hloop
  have hone : rest.length ≤ 1 := by
    rw [List.length_drop] at hi
    dsimp only at hi
    omega
  have hlength : (operands (argv.drop 1)).length = exprs.length + rest.length := by
    rw [hoperands, List.length_append, List.length_map, List.length_map]
  rw [hlength]
  unfold Honoured planned
  rw [Option.or_none] at hexpr
  cases hlast : exprs.getLast? with
  | some expr =>
    rw [hexpr, hlast]
    have hne : exprs ≠ [] := by
      rintro rfl
      cases hlast
    have hpos := List.length_pos_of_ne_nil hne
    constructor
    · rintro ⟨hran, -⟩
      have hcount : 1 = exprs.length + rest.length := hlength ▸ congrArg List.length hran
      have hnil : rest = [] := List.eq_nil_of_length_eq_zero (by omega)
      refine ⟨by omega, ?_⟩
      rcases hrest with ⟨hafter, -⟩ | ⟨hafter, -⟩
      · rw [hafter, hnil]
      · exact hafter
    · rintro ⟨hcount, -⟩
      obtain ⟨e, rfl⟩ := List.length_eq_one_iff.1 (by omega : exprs.length = 1)
      have hnil : rest = [] := List.eq_nil_of_length_eq_zero (by omega)
      rw [List.getLast?_singleton] at hlast
      cases hlast
      rw [hoperands, hnil]
      exact ⟨rfl, by simp⟩
  | none =>
    obtain rfl := List.getLast?_eq_none_iff.1 hlast
    rw [hexpr, hlast, hoperands]
    rcases hrest with ⟨hafter, hpath, hrun⟩ | ⟨hafter, path, more, rfl, hpath⟩
    · -- nothing but the arguments after `--`
      rw [hpath, hrun, hafter]
      refine ⟨fun h => ?_, fun h => ?_⟩
      · have hnil : rest = [] := List.map_eq_nil_iff.1 (h.2 (List.mem_singleton.2 rfl))
        exact ⟨by rw [hnil]; decide, hnil⟩
      · rw [h.2]
        exact ⟨rfl, fun _ => rfl⟩
    · rw [hpath, hafter]
      have hnil : more = [] := List.eq_nil_of_length_eq_zero (by rw [List.length_cons] at hone; omega)
      rw [hnil]
      exact ⟨fun _ => ⟨Nat.le_refl _, rfl⟩, fun _ => ⟨rfl, by simp⟩⟩

/-- An empty standard input, and no files. -/
def Host.bare : Host where
  fopen := fun _ => none
  stdin := ⟨[], false⟩
  isTty := false
  malloc := fun _ => true
  createFails := none

/-- `microlisp -- script` starts the loop. -/
theorem script_dropped_after_dashes : ¬ ∀ (c : Config) (n : Nat) (w : Host) (s : State) (argv : List Bytes),
    w.createFails = none →
    (∀ text, .prints text ∉ (main c n w argv s).trace) → ¬ (main c n w argv s).Ends (.ok 2) →
    Honoured argv (main c n w argv s).trace := by
  intro h
  have htrace : (main Config.created 1 .bare [ascii "microlisp", ascii "--", ascii "script"] State.created).trace
    = [.repl] := rfl
  have hends : (main Config.created 1 .bare [ascii "microlisp", ascii "--", ascii "script"] State.created).Ends
    (.ok 0) := rfl
  have hall := h Config.created 1 .bare State.created [ascii "microlisp", ascii "--", ascii "script"] rfl
  rw [htrace] at hall
  have hnothing := (hall (by simp) fun htwo => by cases hends.unique htwo).2 (List.mem_singleton.2 rfl)
  rw [List.drop_one, List.tail_cons, operands_dashes] at hnothing
  cases hnothing

/-- What is given is what gets run, exactly when nothing stands after `--` and no more is given
than one thing. -/
theorem main_honours_iff (c : Config) (n : Nat) (w : Host) (s : State) (argv : List Bytes)
    (hcreate : w.createFails = none)
    (hprints : ∀ text, .prints text ∉ (main c n w argv s).trace) (hcode : ¬ (main c n w argv s).Ends (.ok 2)) :
    Honoured argv (main c n w argv s).trace ↔
      (operands (argv.drop 1)).length ≤ 1 ∧ afterDashes (argv.drop 1) = [] := by
  obtain ⟨args, hloop, hextra, htrace⟩ := main_cases hcreate hprints hcode
  obtain ⟨l, hl, hdispatch⟩ := dispatch_trace (c := c) (n := n) (w := w) args s
  rw [← planned_iff hloop hextra, htrace, hdispatch]
  unfold Honoured
  rw [ran_append hl, repl_mem_append hl]

/-- A script on the standard input is what is given and run. -/
theorem main_honours_stdin : Honoured [ascii "microlisp", ascii "-"]
    (main Config.created 1 .bare [ascii "microlisp", ascii "-"] State.created).trace := by
  have htrace : (main Config.created 1 .bare [ascii "microlisp", ascii "-"] State.created).trace =
    [.runs (.script (ascii "-"))] := rfl
  have hends : (main Config.created 1 .bare [ascii "microlisp", ascii "-"] State.created).Ends (.ok 0) := rfl
  refine (main_honours_iff Config.created 1 .bare State.created [ascii "microlisp", ascii "-"] rfl ?_ ?_).2
    ⟨by decide, by decide⟩
  · rw [htrace]
    simp
  · intro htwo
    cases hends.unique htwo

end Dropped
end Microlisp.CommandLine
