import Mathlib.Data.List.TakeWhile
import Microlisp.Api
/-!
# The read-eval-print loop (`state.c`)

`microlisp_repl` reads its input through a buffer of 4096 bytes and hands what it finds
there to `microlisp_eval`. Where every line fits the buffer and has no NUL byte, that is
an evaluation of the lines, one after the other.
-/
namespace Microlisp

open Prog

/-- A run of the loop; its trace is what it handed to `microlisp_eval`. -/
abbrev Repl := Prog State Status Bytes

/-- `microlisp_status_string`. -/
def statusString : Status → Bytes
  | .errInvalidArg => ascii "MICROLISP_ERR_INVALID_ARG"
  | .errNomem => ascii "MICROLISP_ERR_NOMEM"
  | .errReadSyntax => ascii "MICROLISP_ERR_READ_SYNTAX"
  | .errReadTruncated => ascii "MICROLISP_ERR_READ_TRUNCATED"
  | .errReadDepth => ascii "MICROLISP_ERR_READ_DEPTH"
  | .errUnbound => ascii "MICROLISP_ERR_UNBOUND"
  | .errType => ascii "MICROLISP_ERR_TYPE"
  | .errArity => ascii "MICROLISP_ERR_ARITY"
  | .errDivZero => ascii "MICROLISP_ERR_DIV_ZERO"
  | .errOverflow => ascii "MICROLISP_ERR_OVERFLOW"
  | .errUser => ascii "MICROLISP_ERR_USER"
  | .errIo => ascii "MICROLISP_ERR_IO"
  | .errSyntax => ascii "MICROLISP_ERR_SYNTAX"
  | .errEvalDepth => ascii "MICROLISP_ERR_EVAL_DEPTH"
  | .errPrintDepth => ascii "MICROLISP_ERR_PRINT_DEPTH"
  | .errEqualDepth => ascii "MICROLISP_ERR_EQUAL_DEPTH"

/-! ## The streams -/

/-- At most that many bytes, up to a newline, which is kept; and the rest. -/
def takeLine : Nat → Bytes → Bytes × Bytes
  | 0, bs => ([], bs)
  | _ + 1, [] => ([], [])
  | n + 1, b :: bs => if b = ch '\n' then ([b], bs) else (b :: (takeLine n bs).1, (takeLine n bs).2)

/-- `fgets(buf, size, in)`, with what is left of the input; nothing at its end. -/
def fgets (size : Nat) (input : Bytes) : Option (Bytes × Bytes) :=
  if input = [] then none else some (takeLine (size - 1) input)

/-- `strlen` ends the string at the first NUL. -/
def cString (buf : Bytes) : Bytes := buf.takeWhile (· ≠ 0)

/-- A write to `out_file` that must not fail. -/
def writeOrFail (c : Config) (bytes : Bytes) : Repl Unit := do
  match ← calling (stateOutputSink c () bytes) with
  | .ok _ => pure ()
  | .error _ => fail .errIo

def flushOrFail (c : Config) : Repl Unit := do
  match ← calling (stateOutputFlush c) with
  | .ok _ => pure ()
  | .error _ => fail .errIo

/-! ## The loop -/

/-- The call of `microlisp_eval`, with its result or its diagnostic. -/
def replEval (c : Config) (n : Nat) (source : Bytes) : Repl Unit := do
  emit source
  match ← calling (microlispEval c n (some source) source.length true) with
  | .ok none => pure ()
  | .ok (some result) =>
    if result ≠ [] then
      writeOrFail c result
      writeOrFail c [ch '\n']
    else
      pure ()
  | .error st =>
    let message ← gets fun s => s.lastError.message
    writeOrFail c (ascii "error (" ++ statusString st ++ ascii "): " ++ cString message ++ [ch '\n'])

def replPrompt (c : Config) : Option Bytes → Repl Unit
  | none => pure ()
  | some prompt => do
    writeOrFail c prompt
    flushOrFail c

/-- At the end of the input. -/
def replEnd (c : Config) : Option Bytes → Repl Unit
  | none => pure ()
  | some _ => writeOrFail c [ch '\n']

/-- Each turn but the last one takes a byte of the input. -/
def replLoop (c : Config) (n : Nat) (prompt : Option Bytes) : Nat → Bytes → Repl Unit
  | 0, _ => timeout
  | turns + 1, input => do
    replPrompt c prompt
    match fgets 4096 input with
    | none => replEnd c prompt
    | some (buf, rest) =>
      if cString buf = [] then
        replLoop c n prompt turns rest
      else
        replEval c n (cString buf)
        replLoop c n prompt turns rest

/-- While `m` runs, `out_file` stands in for the output stream: the status of `m`, and what
is in `out_file` at its end. -/
def routed (m : Repl Unit) (outFile : Bytes) : Repl (Except Status Unit × Bytes) := fun s =>
  let r := m { s with output := outFile }
  let done (status : Except Status Unit) : Run State Status Bytes (Except Status Unit × Bytes) :=
    ⟨.ok (status, r.state.output), { r.state with output := s.output }, r.trace⟩
  match r.res with
  | .ok _ => done (.ok ())
  | .error (.err e) => done (.error e)
  | .error .stuck => ⟨.error .stuck, r.state, r.trace⟩
  | .error .timeout => ⟨.error .timeout, r.state, r.trace⟩

/-- `microlisp_repl` on a live state; `outFile` is what is in `out_file` already. -/
def microlispRepl (c : Config) (n : Nat) (prompt : Option Bytes) (input outFile : Bytes) :
    Repl (Except Status Unit × Bytes) :=
  routed (replLoop c n prompt (input.length + 1) input) outFile

/-! ## Line by line -/

/-- The lines of a stream, each with its newline; the last one may lack it. -/
def lines : Bytes → List Bytes
  | [] => []
  | b :: bs =>
    if b = ch '\n' then
      [b] :: lines bs
    else
      match lines bs with
      | [] => [[b]]
      | l :: ls => (b :: l) :: ls

/-- What the loop is for: `microlisp_eval` on each line in turn. -/
def evalLines (c : Config) (n : Nat) (prompt : Option Bytes) : List Bytes → Repl Unit
  | [] => do
    replPrompt c prompt
    replEnd c prompt
  | line :: rest => do
    replPrompt c prompt
    replEval c n line
    evalLines c n prompt rest

/-- The lines that the buffer holds whole. -/
def Fits (line : Bytes) : Prop := line.length ≤ 4095 ∧ 0 ∉ line

section Lines
variable {line : Bytes} {input : Bytes} {ls : List Bytes}

theorem lines_eq_nil (h : lines input = []) : input = [] := by
  cases input with
  | nil => rfl
  | cons b bs =>
    unfold lines at h
    split at h
    · cases h
    · split at h <;> cases h

theorem ne_nil_of_lines (h : lines input = line :: ls) : line ≠ [] := by
  cases input with
  | nil => cases h
  | cons b bs =>
    unfold lines at h
    split at h
    · cases h
      simp
    · split at h <;> cases h <;> simp

/-- A line that fits is read in one go. -/
theorem takeLine_lines (n : Nat) (h : lines input = line :: ls) (hn : line.length ≤ n) :
    ∃ rest, takeLine n input = (line, rest) ∧ lines rest = ls ∧ rest.length < input.length := by
  induction input generalizing n line ls with
  | nil => cases h
  | cons b bs ih =>
    unfold lines at h
    obtain ⟨n, rfl⟩ : ∃ k, n = k + 1 := by
      refine ⟨n - 1, ?_⟩
      split at h
      · cases h
        simp at hn
        omega
      · split at h <;> cases h <;> simp at hn <;> omega
    unfold takeLine
    by_cases hb : b = ch '\n'
    · rw [if_pos hb] at h ⊢
      cases h
      exact ⟨bs, rfl, rfl, by simp⟩
    · rw [if_neg hb] at h ⊢
      cases hl : lines bs with
      | nil =>
        rw [hl] at h
        cases h
        rw [lines_eq_nil hl]
        exact ⟨[], by cases n <;> rfl, rfl, by simp⟩
      | cons l ls' =>
        rw [hl] at h
        cases h
        simp only [List.length_cons] at hn
        obtain ⟨rest, htake, hrest, hlt⟩ := ih n hl (by omega)
        exact ⟨rest, by rw [htake], hrest, by simp; omega⟩

theorem fgets_lines (h : lines input = line :: ls) (hn : line.length ≤ 4095) :
    ∃ rest, fgets 4096 input = some (line, rest) ∧ lines rest = ls ∧ rest.length < input.length := by
  obtain ⟨rest, htake, hrest⟩ := takeLine_lines 4095 h hn
  refine ⟨rest, ?_, hrest⟩
  unfold fgets
  rw [if_neg (fun h' => by rw [h'] at h; cases h), htake]

theorem cString_of_fits (h : Fits line) : cString line = line :=
  List.takeWhile_eq_self_iff.2 fun b hb => by
    simp only [decide_eq_true_eq]
    rintro rfl
    exact h.2 hb

theorem takeLine_length (n : Nat) (input : Bytes) : (takeLine n input).1.length ≤ n := by
  induction n generalizing input with
  | zero => simp [takeLine]
  | succ n ih =>
    cases input with
    | nil => simp [takeLine]
    | cons b bs =>
      unfold takeLine
      split
      · simp
      · simpa using ih bs

theorem cString_fits (input : Bytes) {buf rest : Bytes} (h : fgets 4096 input = some (buf, rest)) :
    Fits (cString buf) := by
  unfold fgets at h
  split at h
  · cases h
  · have hlen := takeLine_length 4095 input
    rw [Option.some.inj h] at hlen
    refine ⟨Nat.le_trans (List.takeWhile_sublist _).length_le hlen, fun h0 => ?_⟩
    simpa using List.mem_takeWhile_imp h0

end Lines

section Runs
variable {c : Config} {n : Nat} {prompt : Option Bytes}

/-- On lines that fit, the loop evaluates line by line. -/
theorem replLoop_lines (turns : Nat) (input : Bytes) (hfit : ∀ line ∈ lines input, Fits line)
    (ht : input.length < turns) :
    replLoop c n prompt turns input = evalLines c n prompt (lines input) := by
  induction turns generalizing input with
  | zero => omega
  | succ turns ih =>
    unfold replLoop
    cases hl : lines input with
    | nil =>
      rw [lines_eq_nil hl]
      rfl
    | cons line ls =>
      have hline : Fits line := hfit line (by simp [hl])
      obtain ⟨rest, hget, hrest, hlt⟩ := fgets_lines hl hline.1
      have hloop := ih rest (fun l hmem => hfit l (by rw [hl, ← hrest]; exact List.mem_cons_of_mem _ hmem)) (by omega)
      rw [hget]
      simp only [cString_of_fits hline, if_neg (ne_nil_of_lines hl), hloop, hrest]
      rfl

/-! ## What is handed over -/

/-- Everything that `m` hands to `microlisp_eval` fits. -/
def HandsFit {α : Type} (m : Repl α) : Prop := Traced (fun _ l _ => ∀ x ∈ l, Fits x) m

section Fitting
variable {α β : Type} {m : Repl α} {f : α → Repl β}

theorem HandsFit.bind (h : HandsFit m) (hk : ∀ a, HandsFit (f a)) : HandsFit (m >>= f) :=
  Traced.bind h hk (fun _ _ _ h => h) fun _ _ _ _ _ h h' x hx => (List.mem_append.1 hx).elim (h x) (h' x)

theorem handsFit_pure {a : α} : HandsFit (pure a : Repl α) := fun _ => nofun

theorem handsFit_fail {e : Status} : HandsFit (fail e : Repl α) := fun _ => nofun

theorem handsFit_calling {m : ML α} : HandsFit (calling m : Repl (Except Status α)) := by
  intro s
  unfold calling
  split <;> exact nofun

theorem handsFit_write {bytes : Bytes} : HandsFit (writeOrFail c bytes) := by
  apply handsFit_calling.bind
  intro r
  cases r with
  | ok _ => exact handsFit_pure
  | error _ => exact handsFit_fail

theorem handsFit_prompt : HandsFit (replPrompt c prompt) := by
  cases prompt with
  | none => exact handsFit_pure
  | some prompt =>
    apply handsFit_write.bind
    intro _
    apply handsFit_calling.bind
    intro r
    cases r with
    | ok _ => exact handsFit_pure
    | error _ => exact handsFit_fail

theorem handsFit_eval {source : Bytes} (h : Fits source) : HandsFit (replEval c n source) := by
  apply HandsFit.bind
  · intro s x hx
    rw [List.mem_singleton.1 hx]
    exact h
  · intro _
    apply handsFit_calling.bind
    rintro (st | result)
    · exact HandsFit.bind (fun _ => nofun) fun _ => handsFit_write
    · cases result with
      | none => exact handsFit_pure
      | some result =>
        dsimp only
        split
        · exact handsFit_write.bind fun _ => handsFit_write
        · exact handsFit_pure

theorem handsFit_loop (turns : Nat) (input : Bytes) : HandsFit (replLoop c n prompt turns input) := by
  induction turns generalizing input with
  | zero => exact fun _ => nofun
  | succ turns ih =>
    apply handsFit_prompt.bind
    intro _
    split
    · cases prompt with
      | none => exact handsFit_pure
      | some _ => exact handsFit_write
    · rename_i buf rest hget
      split
      · exact ih rest
      · exact (handsFit_eval (cString_fits input hget)).bind fun _ => ih rest

end Fitting

/-- If a run of `m` ends, it returns, and has handed over these sources. -/
def Evaluates {α : Type} (m : Repl α) (l : List Bytes) : Prop :=
  ∀ s, (m s).res = .error .stuck ∨ (m s).res = .error .timeout ∨ (∃ a, (m s).res = .ok a) ∧ (m s).trace = l

section Evaluating
variable {α β : Type} {m : Repl α} {f : α → Repl β} {l l' : List Bytes}

theorem Evaluates.bind (h : Evaluates m l) (hk : ∀ a, Evaluates (f a) l') : Evaluates (m >>= f) (l ++ l') := by
  intro s
  simp only [Bind.bind, Prog.bind]
  rcases h s with hr | hr | ⟨⟨a, hr⟩, htrace⟩
  · rw [hr]
    exact .inl rfl
  · rw [hr]
    exact .inr (.inl rfl)
  · rw [hr]
    rcases hk a (m s).state with h | h | ⟨⟨b, h⟩, ht⟩
    · exact .inl h
    · exact .inr (.inl h)
    · exact .inr (.inr ⟨⟨b, h⟩, congrArg₂ (· ++ ·) htrace ht⟩)

/-- Nothing is handed over after the sources of `m`. -/
theorem Evaluates.and (h : Evaluates m l) (hk : ∀ a, Evaluates (f a) []) : Evaluates (m >>= f) l := by
  have h := h.bind hk
  rwa [List.append_nil] at h

theorem Evaluates.pure {a : α} : Evaluates (Pure.pure a : Repl α) [] := fun _ => .inr (.inr ⟨⟨a, rfl⟩, rfl⟩)

theorem Evaluates.gets {g : State → α} : Evaluates (Prog.gets g : Repl α) [] := fun s => .inr (.inr ⟨⟨g s, rfl⟩, rfl⟩)

theorem Evaluates.calling {m : ML α} : Evaluates (Prog.calling m : Repl (Except Status α)) [] := by
  intro s
  unfold Prog.calling
  split
  · exact .inr (.inr ⟨⟨_, rfl⟩, rfl⟩)
  · exact .inr (.inr ⟨⟨_, rfl⟩, rfl⟩)
  · exact .inl rfl
  · exact .inr (.inl rfl)

variable (hwrite : ∀ k len, c.fwrite k len = len) (hflush : ∀ k, c.fflush k = true)
include hwrite

theorem writeOrFail_evaluates {bytes : Bytes} : Evaluates (writeOrFail c bytes) [] := by
  intro s
  have hsink : (stateOutputSink c () bytes s).res = .ok () := by
    unfold stateOutputSink
    rw [gets_bind_run, modify_bind_run, hwrite, if_neg (by simp)]
    rfl
  refine .inr (.inr ⟨⟨(), ?_⟩, ?_⟩) <;>
    simp [writeOrFail, Prog.calling, hsink, Bind.bind, Prog.bind, Pure.pure, Prog.pure]

theorem replEval_evaluates {source : Bytes} : Evaluates (replEval c n source) [source] := by
  have hemit : Evaluates (emit source : Repl Unit) [source] := fun _ => .inr (.inr ⟨⟨(), rfl⟩, rfl⟩)
  apply hemit.and
  intro _
  apply Evaluates.calling.and
  rintro (st | result)
  · exact Evaluates.gets.and fun _ => writeOrFail_evaluates hwrite
  · cases result with
    | none => exact .pure
    | some result =>
      dsimp only
      split
      · exact (writeOrFail_evaluates hwrite).and fun _ => writeOrFail_evaluates hwrite
      · exact .pure

include hflush

theorem replPrompt_evaluates : Evaluates (replPrompt c prompt) [] := by
  have hflushes : Evaluates (flushOrFail c) [] := by
    intro s
    have hflushes : (stateOutputFlush c s).res = .ok () := by
      unfold stateOutputFlush
      rw [gets_bind_run, modify_bind_run, hflush, if_pos rfl]
      rfl
    refine .inr (.inr ⟨⟨(), ?_⟩, ?_⟩) <;>
      simp [flushOrFail, Prog.calling, hflushes, Bind.bind, Prog.bind, Pure.pure, Prog.pure]
  cases prompt with
  | none => exact .pure
  | some prompt => exact (writeOrFail_evaluates hwrite).and fun _ => hflushes

theorem evalLines_evaluates (ls : List Bytes) : Evaluates (evalLines c n prompt ls) ls := by
  induction ls with
  | nil =>
    apply (replPrompt_evaluates hwrite hflush).and
    intro _
    cases prompt with
    | none => exact .pure
    | some _ => exact writeOrFail_evaluates hwrite
  | cons line ls ih =>
    exact (replPrompt_evaluates hwrite hflush).bind fun _ => (replEval_evaluates hwrite).bind fun _ => ih

end Evaluating

theorem routed_trace {m : Repl Unit} {outFile : Bytes} {s : State} :
    (routed m outFile s).trace = (m { s with output := outFile }).trace := by
  unfold routed
  dsimp only
  split <;> rfl

theorem routed_ends {m : Repl Unit} {outFile : Bytes} {s : State} {o : Except Status Unit × Bytes}
    (h : (routed m outFile s).res = .ok o) :
    (m { s with output := outFile }).res ≠ .error .stuck ∧ (m { s with output := outFile }).res ≠ .error .timeout := by
  unfold routed at h
  dsimp only at h
  split at h
  · exact ⟨by simp [*], by simp [*]⟩
  · exact ⟨by simp [*], by simp [*]⟩
  · cases h
  · cases h

/-- Where writes to `out_file` succeed, a run of `microlisp_repl` that ends has called
`microlisp_eval` once on each line of its input, in order, and has done what an evaluation
line by line does, if and only if every line, with its newline, has at most 4095 bytes and
no NUL byte. -/
theorem microlispRepl_lines (c : Config) (hwrite : ∀ k len, c.fwrite k len = len) (hflush : ∀ k, c.fflush k = true)
    (n : Nat) (prompt : Option Bytes) (input outFile : Bytes) (s : State) (o : Except Status Unit × Bytes)
    (ho : (microlispRepl c n prompt input outFile s).res = .ok o) :
    ((microlispRepl c n prompt input outFile s).trace = lines input ∧
      microlispRepl c n prompt input outFile s = routed (evalLines c n prompt (lines input)) outFile s) ↔
    ∀ line ∈ lines input, line.length ≤ 4095 ∧ 0 ∉ line := by
  constructor
  · rintro ⟨hlines, -⟩ line hline
    rw [← hlines, microlispRepl, routed_trace] at hline
    exact handsFit_loop _ _ _ line hline
  · intro hfit
    have hrun : microlispRepl c n prompt input outFile = routed (evalLines c n prompt (lines input)) outFile := by
      rw [microlispRepl, replLoop_lines _ _ hfit (Nat.lt_succ_self _)]
    refine ⟨?_, congrFun hrun s⟩
    rw [hrun] at ho ⊢
    rw [routed_trace]
    rcases evalLines_evaluates hwrite hflush (lines input) { s with output := outFile } with h | h | ⟨-, h⟩
    · exact absurd h (routed_ends ho).1
    · exact absurd h (routed_ends ho).2
    · exact h

theorem microlispRepl_lines_two :
    (microlispRepl .created 3 none (ascii "1\n'a") [] .created).trace = [ascii "1\n", ascii "'a"] :=
  ((microlispRepl_lines .created (fun _ _ => rfl) (fun _ => rfl) 3 none (ascii "1\n'a") [] .created
    (.ok (), ascii "1\na\n") (by decide +kernel)).2 (by decide)).1

/-- A line with a NUL byte in it, which `microlisp_eval` refuses as a whole: the loop
evaluates what stands before the NUL. -/
def nulLine : Bytes := ascii "1" ++ [0] ++ ascii "2\n"

theorem microlispRepl_cuts_line :
    lines nulLine = [nulLine] ∧
    (microlispRepl .created 3 none nulLine [] .created).trace = [ascii "1"] ∧
    (microlispRepl .created 3 none nulLine [] .created).res = .ok (.ok (), ascii "1\n") ∧
    (routed (evalLines .created 3 none (lines nulLine)) [] .created).res
      = .ok (.ok (), ascii "error (MICROLISP_ERR_READ_SYNTAX): integer literal not followed by a token terminator\n") :=
  ⟨by decide, by decide +kernel, by decide +kernel, by decide +kernel⟩

end Runs
end Microlisp
