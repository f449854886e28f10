import Microlisp.Api
import Microlisp.Tidy.Eval
import Microlisp.Tidy.Reader
import Microlisp.Tidy.Walks
/-!
# Sessions

A session starts with `microlisp_state_create` and goes on with calls of `microlisp_eval`,
of any source and with any outcome, under any allocator, output stream, limits and
collection schedule. Its heap stays tidy, and so does every heap on the way.
-/
namespace Microlisp

open Prog

/-- The symbols and the top-level frame are those that `microlisp_state_create` makes. -/
def Config.Standard (c : Config) : Prop :=
  c = { Config.created with
    alloc := c.alloc
    fwrite := c.fwrite
    fflush := c.fflush
    collectDue := c.collectDue
    maxReadDepth := c.maxReadDepth
    maxEvalDepth := c.maxEvalDepth
    maxPrintDepth := c.maxPrintDepth
    maxEqualDepth := c.maxEqualDepth }

/-- The state in which `microlisp_state_create` installs the primitives. -/
def State.Fresh (s : State) : Prop :=
  s = { State.created with
    gcThreshold := s.gcThreshold
    gcStress := s.gcStress
    allocs := s.allocs
    writes := s.writes
    flushes := s.flushes }

inductive Session : State → Prop
  | create {c : Config} {s : State} (hc : c.Standard) (hs : s.Fresh)
      (h : (mlPrimitivesInstall c c.toplevelEnv s).Ends (.ok ())) :
      Session (mlPrimitivesInstall c c.toplevelEnv s).state
  | call {c : Config} {s : State} (hc : c.Standard) (hs : Session s) (n : Nat) (source : Option Bytes) (sourceLen : Nat)
      (wantBytes : Bool) {o : Except Status (Option Bytes)}
      (h : (microlispEval c n source sourceLen wantBytes s).Ends o) :
      Session (microlispEval c n source sourceLen wantBytes s).state

/-- The heap of `s`, or one recorded while a call from `s` runs. -/
def State.Passes (s : State) (h : Heap) : Prop :=
  h = s.heap ∨ ∃ c n source sourceLen wantBytes, c.Standard ∧
    .heap h ∈ (microlispEval c n source sourceLen wantBytes s).trace

/-! ## Calls are tidy -/

section Calls
variable {c : Config} {s : State} {vs : List Val} {α : Type} {m : ML α} {out : α → List Val}

theorem Config.Standard.symQuote (hc : c.Standard) (n : Nat) : c.symQuote.Fit n := by
  rw [hc]
  trivial

theorem Config.Standard.toplevelEnv (hc : c.Standard) : c.toplevelEnv = .obj 1 := by
  rw [hc]
  rfl

/-- The top-level frame fits. -/
theorem Tidies.withToplevel (h : Tidies c 0 ([c.toplevelEnv] ++ vs) m out) : Tidies c 0 vs m out := by
  intro s hs
  have htop : s.Ctx c 0 ([c.toplevelEnv] ++ vs) := hs.add
    (fun w hw => by rw [List.mem_singleton.1 hw]; exact hs.toplevel) fun _ _ => Val.since_zero
  apply wp_mono (h s htop) _ fun _ _ h => h
  intro a t ht
  exact ht.weaken fun v hv => .inl (by rcases List.mem_append.1 hv with hv | hv <;> simp [hv])

theorem installLoop_tidy (l : List (String × PrimFn × UInt32 × UInt32)) (env : Val) :
    Tidies c 0 vs (installLoop c env l) fun _ => [] := by
  induction l generalizing vs with
  | nil => exact .none
  | cons p l ih =>
    have halloc : Tidies c 0 vs (mlGcAllocPrimitive c p.1 p.2.1 p.2.2.1 p.2.2.2) fun v => [v] :=
      .gcAlloc (by simp [Obj.refs])
    apply halloc.bind
    intro prim
    apply Tidies.savepoint
    intro sp
    apply (Tidies.mlGcProtect .top).seq
    intro _
    apply mlSymIntern_tidy.onErr_restore.bind
    intro sym
    exact .seq (mlEnvDefine_tidy .top Val.Known.top.tail).andThen_restore fun _ => ih

theorem readEvalLoop_tidy (hc : c.Standard) (n turns : Nat) (r : Reader) (v : Val) (sawForm : Bool) (hv : v.Known vs) :
    Tidies c 0 vs (readEvalLoop c n turns r v sawForm) fun x => [x.1] := by
  induction turns generalizing vs r v sawForm with
  | zero => exact .timeout
  | succ turns ih =>
    apply (readForm_tidy hc.symQuote _ 0 vs r).bind
    intro x
    apply Tidies.ite
    · apply Tidies.pure
      intro w hw
      rw [List.mem_singleton.1 hw]
      exact hv.tail
    · apply Tidies.savepoint
      intro sp
      apply (Tidies.mlGcProtect .top).seq
      intro _
      apply Tidies.withToplevel
      apply (mlEval_tidy c n _ _ _ Val.Known.top.tail .top).andThen_restore.bind
      exact fun result => ih _ _ _ .top

theorem printResult_tidy {v : Val} {sawForm wantBytes : Bool} (hv : v.Known vs) :
    Tidies c 0 vs (printResult c v sawForm wantBytes) fun _ => [] := by
  apply Tidies.ite .none
  apply Tidies.savepoint
  intro sp
  apply (Tidies.mlGcProtect hv).seq
  intro _
  exact .seq mlPrintToAlloc_tidy.andThen_restore fun _ => .none

theorem microlispEval_tidy (hc : c.Standard) (n : Nat) (source : Option Bytes) (sourceLen : Nat) (wantBytes : Bool) :
    Tidies c 0 vs (microlispEval c n source sourceLen wantBytes) fun _ => [] := by
  apply Tidies.ite .raise
  refine .seq (.modify fun s hs => hs.of_eq rfl fun _ hv => hv) fun _ => ?_
  exact .bind (readEvalLoop_tidy hc _ _ _ _ _ plain_imm.known) fun x => printResult_tidy .top

/-- What a tidy run records, whatever it ends in. -/
theorem Tidies.trace (h : Tidies c 0 [] m out) (hs : s.Tidy c) : ∀ e ∈ (m s).trace, e.Tidy :=
  (h s (hs.ctx_zero (by simp)) fun _ _ => id).1

/-- A tidy run that returns, with a result or an error, leaves a tidy state. -/
theorem Tidies.state (h : Tidies c 0 [] m out) (hs : s.Tidy c) {o : Except Status α} (ho : (m s).Ends o) :
    (m s).state.Tidy c := by
  have hk := (h s (hs.ctx_zero (by simp)) fun _ _ => id).2
  unfold Run.Ends at ho
  cases o with
  | ok a =>
    rw [ho] at hk
    exact hk.toTidy
  | error e =>
    rw [ho] at hk
    exact hk

theorem Tidies.result (h : Tidies c 0 vs m out) (hs : s.Tidy c) (hvs : ∀ v ∈ vs, v.Fit s.heap.next) {a : α}
    (ha : (m s).res = .ok a) : ∀ v ∈ out a, v.InRange := by
  have hk := (h s (hs.ctx_zero hvs) fun _ _ => id).2
  simp only [ha] at hk
  exact fun v hv => (hk.fits v (List.mem_append_left _ hv)).inRange

end Calls

/-! ## Every state of a session is tidy -/

theorem State.Fresh.tidy {c : Config} {s : State} (hc : c.Standard) (hs : s.Fresh) : s.Tidy c := by
  have hheap : s.heap = Heap.empty.alloc (.env mvNil [] 0) := by rw [hs]; rfl
  have hempty : Heap.Tidy Heap.empty := ⟨by rintro a o ⟨⟩, fun _ => 0, by rintro a b ⟨x, y, ⟨⟩, _⟩⟩
  refine ⟨?_, ?_, ?_⟩
  · rw [hheap]
    apply hempty.alloc
    intro v hv
    rw [List.mem_singleton.1 hv]
    trivial
  · rw [hs]
    simp [State.created]
  · rw [hheap, hc.toplevelEnv]
    exact Nat.lt_succ_self 1

/-- Tidiness asks only for the top-level frame of a configuration. -/
theorem State.Tidy.standard {c c' : Config} {s : State} (h : s.Tidy c) (hc : c.Standard) (hc' : c'.Standard) :
    s.Tidy c' :=
  { h with toplevel := by rw [hc'.toplevelEnv, ← hc.toplevelEnv]; exact h.toplevel }

theorem Session.tidy {s : State} (hs : Session s) {c : Config} (hc : c.Standard) : s.Tidy c := by
  induction hs with
  | @create c' s hc' hs h =>
    have hrun : (mlPrimitivesInstall c' c'.toplevelEnv s).state.Tidy c' :=
      (installLoop_tidy kPrimitives c'.toplevelEnv).state (hs.tidy hc') h
    exact hrun.standard hc' hc
  | @call c' s hc' _ n source sourceLen wantBytes o h ih =>
    have hs' : s.Tidy c' := ih.standard hc hc'
    have hrun := (microlispEval_tidy hc' n source sourceLen wantBytes).state hs' h
    exact hrun.standard hc' hc

theorem Session.passes {s : State} {h : Heap} (hs : Session s) (hh : s.Passes h) : h.Tidy := by
  rcases hh with rfl | ⟨c, n, source, sourceLen, wantBytes, hc, hmem⟩
  · exact (hs.tidy (c := .created) rfl).heap
  · exact (microlispEval_tidy hc n source sourceLen wantBytes).trace (hs.tidy hc) _ hmem

/-! ## No pairs form a cycle -/

theorem printBufSink_halts {h : Heap} (c : Config) (pb : PrintBuf) (bytes : Bytes) :
    Halts h (printBufSink c pb bytes) := by
  have halloc : ∀ size, Halts h (rawAllocOrFail c size) := by
    rintro size s rfl
    apply wp_mono rawAllocOrFail_wp
    · intro _ t ht
      rw [ht]
    · rintro e t ⟨-, -, ht⟩
      rw [ht]
  apply Halts.ite .fail
  apply Halts.ite _ .pure
  split
  · exact .fail
  · exact .bind (halloc _) fun _ => .pure

theorem stateOutputSink_halts {h : Heap} (c : Config) (user : Unit) (bytes : Bytes) :
    Halts h (stateOutputSink c user bytes) :=
  .bind .gets fun _ => .bind (.modify fun _ => rfl) fun _ => .ite .fail .pure

/-- Printing a pair to a sink, with enough nested calls for its elements. -/
theorem printPair_ends {β : Type} {h : Heap} {out : Config → Sink β} (hout : ∀ c user bytes, Halts h (out c user bytes))
    (hr : Ranked h.PairEdge) (v : Val) :
    ∃ N, ∀ c writeStyle n, N ≤ n →
      ∀ user, Halts h (printPairContents (out c) (printValue (out c) c writeStyle n) v user) := by
  by_cases hp : ∃ a d, h.Has v (.pair a d)
  · obtain ⟨a, d, hp⟩ := hp
    obtain ⟨Na, hNa⟩ := printValue_halts hout hr a
    obtain ⟨Nd, hNd⟩ := printValue_halts hout hr d
    refine ⟨max Na Nd, fun c writeStyle n hn user => ?_⟩
    exact printPairContents_halts hr hp (hNa c writeStyle n (by omega)).1 (hNd c writeStyle n (by omega)).2
  · refine ⟨0, fun c writeStyle n _ user => ?_⟩
    apply Halts.car
    rintro a ⟨d, ho⟩
    exact absurd ⟨a, d, ho⟩ hp

/-- In every heap that a session passes through, no chain of `car`s and `cdr`s comes back to
its start; and with that heap every walk over a value ends by itself, whatever the limits:
the loops over `cdr`s, and the nested calls of `ml_value_equal` and of the printer. -/
theorem pairs_acyclic {s : State} {h : Heap} (hs : Session s) (hh : s.Passes h) :
    (∀ a, ¬ Relation.TransGen h.PairEdge a a) ∧
    ∀ t v, t.heap = h →
      (properListLength v t).res ≠ .error .timeout ∧
      (closureArity v t).res ≠ .error .timeout ∧
      (primLength [v] t).res ≠ .error .timeout ∧
      ∃ N, ∀ c n, N ≤ n →
        (∀ w, (valueEqual c n v w t).res ≠ .error .timeout) ∧
        ∀ writeStyle user,
          (printPairContents (stateOutputSink c) (printValue (stateOutputSink c) c writeStyle n) v
            () t).res ≠ .error .timeout ∧
          (printPairContents (printBufSink c) (printValue (printBufSink c) c writeStyle n) v user t).res ≠ .error
            .timeout := by
  have hr : Ranked h.PairEdge := (hs.passes hh).ranked
  refine ⟨hr.acyclic, ?_⟩
  rintro t v rfl
  refine ⟨properListLength_ends hr, closureArity_ends hr, primLength_ends hr, ?_⟩
  obtain ⟨Ne, hNe⟩ := valueEqual_halts hr v
  obtain ⟨No, hNo⟩ := printPair_ends stateOutputSink_halts hr v
  obtain ⟨Nb, hNb⟩ := printPair_ends printBufSink_halts hr v
  refine ⟨max Ne (max No Nb), fun c n hn => ⟨fun w => ?_, fun writeStyle user => ⟨?_, ?_⟩⟩⟩
  · exact ne_timeout (hNe c n w (by omega) t rfl)
  · exact ne_timeout (hNo c writeStyle n (by omega) () t rfl)
  · exact ne_timeout (hNb c writeStyle n (by omega) user t rfl)

/-- The state that `microlisp_state_create` returns by default. -/
def State.installed : State := (mlPrimitivesInstall .created (.obj 1) .created).state

theorem Session.installed : Session State.installed :=
  .create (c := .created) (s := .created) rfl rfl
    (show (mlPrimitivesInstall .created (.obj 1) .created).res = .ok () by decide +kernel)

/-- A program that builds a list with a dotted pair in it. -/
def listSource : Bytes := ascii "(define l (list 1 (quote (2 . 3))))"

def State.listed : State := (microlispEval .created 20 (some listSource) 36 true State.installed).state

theorem Session.listed : Session State.listed :=
  .call (c := .created) (o := .ok none) rfl .installed 20 (some listSource) 36 true
    (show (microlispEval .created 20 (some listSource) 36 true State.installed).res = .ok none by decide +kernel)

theorem pairs_acyclic_listed :
    State.listed.heap.get 48 = some (.pair (mlMakeFix 1) (.obj 47)) ∧
    State.listed.heap.get 47 = some (.pair (.obj 43) mvNil) ∧
    ∀ a, ¬ Relation.TransGen State.listed.heap.PairEdge a a :=
  ⟨by decide +kernel, by decide +kernel, (pairs_acyclic .listed (.inl rfl)).1⟩

/-! ## Fixnums stay in range -/

/-- What an event says of integers: arguments are in range, `ml_fix_int` gives back what
`ml_make_fix` was given, and an operation on `int64_t` has a result that fits. -/
def Event.Counted : Event → Prop
  | .called argv => ∀ v ∈ argv, v.InRange
  | .madeFix x => mlFixInt (BitVec.ofInt 61 x) = x
  | .int64 x => int64Min ≤ x ∧ x ≤ int64Max
  | _ => True

theorem Event.Tidy.counted {e : Event} (h : e.Tidy) : e.Counted := by
  cases e with
  | madeFix x =>
    apply mlFixInt_ofInt
    have hx : fitsFixnum x = true := h
    simpa [fitsFixnum] using hx
  | called argv => exact h
  | int64 x => exact h
  | _ => trivial

/-- In every state of a session the fixnums in the heap and on the protect stack are in
range, and so they are in every heap that a call passes through, among the arguments of every
procedure call, and in what evaluation returns; what `ml_make_fix` is given it keeps, and no
operation on `int64_t` overflows. -/
theorem fixnums_in_range {s : State} (hs : Session s) :
    (∀ h, s.Passes h → ∀ a o, h.get a = some o → ∀ v ∈ o.refs, v.InRange) ∧
    (∀ v ∈ s.gcProtect, v.InRange) ∧
    ∀ c, c.Standard →
      (∀ n source sourceLen wantBytes, ∀ e ∈ (microlispEval c n source sourceLen wantBytes s).trace, e.Counted) ∧
      (∀ n turns r v sawForm, (readEvalLoop c n turns r mvUndef false s).res = .ok (v, sawForm) → v.InRange) ∧
      (∀ n form env v, form.Fit s.heap.next → env.Fit s.heap.next → (mlEval c n form env s).res = .ok v →
        v.InRange) := by
  refine ⟨?_, ?_, ?_⟩
  · exact fun h hh a o ho v hv => ((hs.passes hh).fit a o ho v hv).inRange
  · exact fun v hv => ((hs.tidy (c := .created) rfl).protect v hv).inRange
  intro c hc
  refine ⟨?_, ?_, ?_⟩
  · intro n source sourceLen wantBytes e he
    exact ((microlispEval_tidy hc n source sourceLen wantBytes).trace (hs.tidy hc) e he).counted
  · intro n turns r v sawForm hv
    have hrun : Tidies c 0 [] (readEvalLoop c n turns r mvUndef false) fun x => [x.1] :=
      readEvalLoop_tidy hc n turns r mvUndef false plain_imm.known
    exact hrun.result (hs.tidy hc) (by simp) hv v (by simp)
  · intro n form env v hform henv hv
    have hvs : ∀ w ∈ [form, env], w.Fit s.heap.next := by
      intro w hw
      rcases List.mem_pair.1 hw with rfl | rfl
      · exact hform
      · exact henv
    exact (mlEval_tidy c n [form, env] form env (.inl (by simp)) (.inl (by simp))).result
      (hs.tidy hc) hvs hv v (by simp)

theorem fixnums_in_range_listed :
    State.listed.heap.get 43 = some (.pair (mlMakeFix 2) (mlMakeFix 3)) ∧
    ∀ a o, State.listed.heap.get a = some o → ∀ v ∈ o.refs, v.InRange :=
  ⟨by decide +kernel, (fixnums_in_range .listed).1 State.listed.heap (.inl rfl)⟩

end Microlisp
