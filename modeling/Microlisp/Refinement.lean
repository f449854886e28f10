import Microlisp.Reference
import Microlisp.Transparent
/-!
# The evaluator refines the reference semantics

Handlers that hand a tail form back to the loop are compared with rules that evaluate it
in place: the handler's run stops part way, and the rule goes on from there. What the
loop then does is the induction hypothesis on its turns.
-/
namespace Microlisp

open Prog

/-- The same interpreter with another limit on the depth of evaluations. -/
def Config.withEvalLimit (c : Config) (limit : Nat) : Config := { c with maxEvalDepth := limit }

/-- The states agree but for the error record, the depth of evaluation and what the memory
manager keeps for itself. -/
structure Agrees (s t : State) : Prop where
  heap : s.heap = t.heap
  symtab : s.symtab = t.symtab
  output : s.output = t.output
  writes : s.writes = t.writes
  flushes : s.flushes = t.flushes
  printDepth : s.printDepth = t.printDepth
  equalDepth : s.equalDepth = t.equalDepth

/-- The state of an evaluation at depth `d`, and one of the semantics. -/
def AgreesAt (d : Nat) (s t : State) : Prop := Agrees s t ∧ s.evalDepth = d

section Base
variable {bl br : Halt Status → Prop} {c : Config} {limit d : Nat}
variable (hc : ∀ n size, c.alloc n size = true) (hd : ∀ s, c.collectDue s = false)
include hc

theorem rawAllocOrFail_agrees {size : Nat} :
    Sim bl br (AgreesAt d) (rawAllocOrFail (c.withEvalLimit limit) size) (rawAllocOrFail c size) := by
  have hraw : Sim bl br (AgreesAt d) (mlRawAlloc (c.withEvalLimit limit) size) (mlRawAlloc c size) := by
    refine .ite (fun _ => .pure _) fun _ => .gets_bind fun s t hR => ?_
    refine Sim.bind (Sim.modify fun s t h => ⟨{ h.1 with }, h.2⟩) (fun _ => ?_) s t hR
    rw [show (c.withEvalLimit limit).alloc _ size = true from hc _ size, hc]
    exact .pure _
  exact hraw.bind fun _ => .ite (fun _ => .pure _) fun _ => .fail _

omit hc in
/-- Without collections an allocation is a request and a link. -/
theorem gcAlloc_never (hd : ∀ s, c.collectDue s = false) {size : Nat} {o : Obj} :
    gcAlloc c size o = (rawAllocOrFail c size >>= fun _ => linkObject o) := by
  have h : maybeCollect c = pure () := by
    funext s
    unfold maybeCollect
    rw [gets_bind_run, hd s]
    rfl
  rw [gcAlloc, h, pure_bind]

include hd

theorem lockstep_reference : Lockstep bl br (c.withEvalLimit limit) c (fun _ _ => True) (AgreesAt d) where
  fwrite := rfl
  fflush := rfl
  maxPrintDepth := .inl rfl
  maxEqualDepth := .inl rfl
  readObj := fun a => .gets_bind fun s t h => by
    rw [h.1.heap]
    cases t.heap.get a with
    | none => exact Sim.stuck s t h
    | some o => exact simAt_pure h
  writeObj := fun v o => by
    cases v with
    | obj a => exact (Sim.modify fun s t h => ⟨{ h.1 with heap := by rw [h.1.heap] }, h.2⟩).bind fun _ => noteHeap_sim
    | _ => exact .stuck
  gcAlloc := fun size o => by
    rw [gcAlloc_never hd, gcAlloc_never (c := c.withEvalLimit limit) hd]
    refine (rawAllocOrFail_agrees hc).bind fun _ => (Sim.gets fun s t h => by rw [h.1.heap]).bind fun _ => ?_
    refine (Sim.modify fun s t h => ⟨{ h.1 with heap := by rw [h.1.heap] }, h.2⟩).bind fun _ => ?_
    exact noteHeap_sim.bind fun _ => .pure _
  rawAlloc := fun size => rawAllocOrFail_agrees hc
  protect := fun v s t h => by
    refine simAt_of_fully (mlGcProtect_total (c := c.withEvalLimit limit) hc) (mlGcProtect_total hc) ?_
    rintro _ _ s' t' hs ht
    rw [hs, ht]
    exact ⟨rfl, { h.1 with }, h.2⟩
  height := fun _ _ _ => trivial
  restore := fun n n' s t _ h => ⟨{ h.1 with }, h.2⟩
  unprotect := fun n s t h => ⟨{ h.1 with }, h.2⟩
  setSlot := fun n n' v s t _ h => ⟨{ h.1 with }, h.2⟩
  setError := fun _ _ _ s t h => ⟨{ h.1 with }, h.2⟩
  next := fun s t h => by rw [h.1.heap]
  symtab := fun s t h => h.1.symtab
  printDepth := fun s t h => h.1.printDepth
  setPrintDepth := fun n s t h => ⟨{ h.1 with printDepth := rfl }, h.2⟩
  equalDepth := fun s t h => h.1.equalDepth
  setEqualDepth := fun n s t h => ⟨{ h.1 with equalDepth := rfl }, h.2⟩
  writes := fun s t h => h.1.writes
  write := fun bytes s t h => ⟨{ h.1 with output := by rw [h.1.output], writes := by rw [h.1.writes] }, h.2⟩
  flushes := fun s t h => h.1.flushes
  flush := fun s t h => ⟨{ h.1 with flushes := by rw [h.1.flushes] }, h.2⟩

end Base

/-! ## Steps of the left run alone -/

section Left
variable {bl br : Halt Status → Prop} {c : Config} {d : Nat} {α β : Type} {s t : State} {f : α → ML β} {m' : ML β}

theorem AgreesAt.restore {n : Nat} (h : AgreesAt d s t) : AgreesAt d (mlGcRestore n s) t := ⟨{ h.1 with }, h.2⟩

theorem AgreesAt.unprotect {n : Nat} (h : AgreesAt d s t) : AgreesAt d (mlGcUnprotect n s) t := ⟨{ h.1 with }, h.2⟩

theorem AgreesAt.setSlot {n : Nat} {v : Val} (h : AgreesAt d s t) : AgreesAt d (gcProtectSet n v s) t :=
  ⟨{ h.1 with }, h.2⟩

/-- An error of the code is the same status of the semantics. -/
theorem raise_agrees {line column : Nat} {message : Bytes} {e : Status} :
    Sim bl br (AgreesAt d) (raise line column message e : ML α) (fail e : ML α) :=
  fun _ _ h => .inr (.inr ⟨rfl, { h.1 with }, h.2⟩)

theorem savepoint_left {f : Nat → ML β} {g : β → ML α} {m' : ML α}
    (hk : ∀ n, SimTo bl br (AgreesAt d) g (f n) m') : SimTo bl br (AgreesAt d) g (mlGcSavepoint >>= f) m' :=
  .left (fun _ _ h => wp_gets h) hk

theorem AgreesAt.push (hc : ∀ n size, c.alloc n size = true) {v : Val} (h : AgreesAt d s t)
    {E : Status → State → Prop} :
    wp Mode.fully (mlGcProtect c v) s (fun _ s' => AgreesAt d s' t) E := by
  refine wp_mono (mlGcProtect_total hc) (fun _ s' hs => ?_) (fun _ _ h => h)
  rw [hs]
  exact ⟨{ h.1 with }, h.2⟩

theorem protect_left (hc : ∀ n size, c.alloc n size = true) {v : Val} {f : Unit → ML β} {g : β → ML α} {m' : ML α}
    (hk : SimTo bl br (AgreesAt d) g (f ()) m') : SimTo bl br (AgreesAt d) g (mlGcProtect c v >>= f) m' :=
  .left (fun _ _ h => h.push hc) fun _ => hk

/-- A push that is undone where it fails. -/
theorem protectOrRestore_left (hc : ∀ n size, c.alloc n size = true) {v : Val} {n : Nat}
    {f : Unit → ML β} {g : β → ML α}
    {m' : ML α} (hk : SimTo bl br (AgreesAt d) g (f ()) m') :
    SimTo bl br (AgreesAt d) g ((mlGcProtect c v).onErr (mlGcRestore n) >>= f) m' :=
  .left (fun _ _ h => wp_onErr (h.push hc)) fun _ => hk

theorem modify_left {g' : State → State} {f : Unit → ML β} {g : β → ML α} {m' : ML α}
    (hg : ∀ s t, AgreesAt d s t → AgreesAt d (g' s) t) (hk : SimTo bl br (AgreesAt d) g (f ()) m') :
    SimTo bl br (AgreesAt d) g (modify g' >>= f) m' :=
  .left (fun s t h => wp_modify (hg s t h)) fun _ => hk

end Left

/-! ## Handlers -/

/-- How the semantics goes on where a handler stopped. -/
def resume (rev : Val → Val → ML Val) (call : ML Val) : SfResult → ML Val
  | .notHandled => call
  | .value v => pure v
  | .tco form env => rev form env

section Handlers
variable {bl br : Halt Status → Prop} {c : Config} {limit d : Nat} {ev rev : Val → Val → ML Val} {call : ML Val}
  {args env : Val}
variable (h : Lockstep bl br (c.withEvalLimit limit) c (fun _ _ => True) (AgreesAt d))
  (hc : ∀ n size, c.alloc n size = true) (hev : ∀ form env, Sim bl br (AgreesAt d) (ev form env) (rev form env))

omit hc in
theorem raise_to {line column : Nat} {message : Bytes} {e : Status} :
    SimTo bl br (AgreesAt d) (resume rev call) (raise line column message e) (fail e) :=
  .of_fail raise_agrees

/-- The handler returns the value of the rule. -/
theorem value_to {m m' : ML Val} (hm : Sim bl br (AgreesAt d) m m') :
    SimTo bl br (AgreesAt d) (resume rev call) (m >>= fun v => pure (.value v)) m' := by
  rw [← bind_pure m']
  exact .bind hm fun _ => .pure rfl

include h

theorem handleQuote_to : SimTo bl br (AgreesAt d) (resume rev call) (handleQuote args) (refQuote args) :=
  .bind (properListLength_lockstep h) fun _ => .ite (fun _ => raise_to) fun _ => value_to (car_lockstep h)

include hev

theorem handleIf_to : SimTo bl br (AgreesAt d) (resume rev call) (handleIf ev args env) (refIf rev args env) := by
  refine .bind (properListLength_lockstep h) fun n => .ite (fun _ => raise_to) fun _ => ?_
  refine .bind (car_lockstep h) fun test => .bind (cdr_lockstep h) fun _ => .bind (car_lockstep h) fun consequent => ?_
  have htest : ∀ alternative, SimTo bl br (AgreesAt d) (resume rev call) (do
      let testV ← ev test env
      if mlTruthy testV then pure (SfResult.tco consequent env)
      else if n = some 3 then pure (.tco alternative env) else pure (.value mvUndef)) (do
      let v ← rev test env
      if mlTruthy v then rev consequent env
      else if n = some 3 then rev alternative env else pure mvUndef) :=
    fun _ => .bind (hev _ _) fun _ => .ite (fun _ => .pure rfl) fun _ => .ite (fun _ => .pure rfl) fun _ => .pure rfl
  refine .ite (fun _ => ?_) fun _ => .bind (.pure _) fun _ => htest _
  exact .bind (cdr_lockstep h) fun _ => .bind (car_lockstep h) fun _ => htest _

theorem beginTco_to {forms : Val} :
    SimTo bl br (AgreesAt d) (resume rev call) (beginTco ev forms env) (refBegin rev forms env) := by
  have hloop : ∀ i forms, SimTo bl br (AgreesAt d) (fun last => car last >>= fun form => rev form env)
      (beginLoop ev env i forms) (refSequence rev env i forms) := by
    intro i
    induction i with
    | zero => exact fun _ => .timeout
    | succ i ih =>
      refine fun forms => .bind (cdr_lockstep h) fun _ => .bind (isObjType_lockstep h) fun _ =>
        .ite (fun _ => ?_) fun _ => .pure rfl
      exact .bind (car_lockstep h) fun _ => .bind (hev _ _) fun _ => .bind (cdr_lockstep h) fun _ => ih _
  refine .ite (fun _ => .pure rfl) fun _ => .bind (properListLength_lockstep h) fun n => ?_
  cases n with
  | none => exact raise_to
  | some n => exact (hloop _ _).next fun last => .bind (car_lockstep h) fun _ => .pure rfl

theorem handleAndOr_to {isOr : Bool} :
    SimTo bl br (AgreesAt d) (resume rev call) (handleAndOr ev args env isOr) (refAndOr rev args env isOr) := by
  have hloop : ∀ i args, SimTo bl br (AgreesAt d) (resume rev call) (andOrLoop ev env isOr i args)
      (refAndOrLoop rev env isOr i args) := by
    intro i
    induction i with
    | zero => exact fun _ => .timeout
    | succ i ih =>
      refine fun args => .bind (cdr_lockstep h) fun _ => .bind (isObjType_lockstep h) fun _ =>
        .ite (fun _ => ?_) fun _ => ?_
      · refine .bind (car_lockstep h) fun _ => .bind (hev _ _) fun _ => .ite (fun _ => .pure rfl) fun _ => ?_
        exact .bind (cdr_lockstep h) fun _ => ih _
      · exact .bind (car_lockstep h) fun _ => .pure rfl
  refine .ite (fun _ => .pure rfl) fun _ => .bind (properListLength_lockstep h) fun n => ?_
  cases n with
  | none => exact raise_to
  | some n => exact hloop _ _

theorem handleCond_to : SimTo bl br (AgreesAt d) (resume rev call) (handleCond (c.withEvalLimit limit) ev args env)
    (refCond c rev args env) := by
  have hloop : ∀ i cur, SimTo bl br (AgreesAt d) (resume rev call) (condLoop (c.withEvalLimit limit) ev env i cur)
      (refCondLoop c rev env i cur) := by
    intro i
    induction i with
    | zero => exact fun _ => .timeout
    | succ i ih =>
      refine fun cur => .bind (isObjType_lockstep h) fun _ => .ite (fun _ => .bind (car_lockstep h) fun _ => ?_)
        fun _ => .pure rfl
      refine .bind (isObjType_lockstep h) fun _ => .ite (fun _ => raise_to) fun _ => .bind (car_lockstep h) fun _ => ?_
      refine .bind (cdr_lockstep h) fun _ => .ite (fun _ => beginTco_to h hev) fun _ => .bind (hev _ _) fun _ => ?_
      refine .ite (fun _ => .ite (fun _ => .pure rfl) fun _ => beginTco_to h hev) fun _ => ?_
      exact .bind (cdr_lockstep h) fun _ => ih _
  refine .bind (properListLength_lockstep h) fun n => ?_
  cases n with
  | none => exact raise_to
  | some n => exact hloop _ _

omit hev
include hc

theorem makeClosure_agrees {params body : Val} : Sim bl br (AgreesAt d)
    (makeClosure (c.withEvalLimit limit) params body env) (refClosure c params body env) := by
  refine (closureArity_lockstep h).bind fun _ => SimTo.sim (savepoint_left fun n => ?_)
  refine .left (fun s t hR => wp_onErr ?_) fun _ => ((h.gcAlloc _ _).andThen_left fun _ _ => .restore).simTo
  exact wp_seq (hR.push hc) fun _ _ hR => wp_seq (hR.push hc) fun _ _ hR => hR.push hc

theorem defineProtected_to {name value : Val} : SimTo bl br (AgreesAt d) (resume rev call)
    (defineProtected (c.withEvalLimit limit) env name value) (do
      mlEnvDefine c env name value
      pure mvUndef) :=
  savepoint_left fun _ => protect_left hc (.bind ((mlEnvDefine_lockstep h).andThen_left fun _ _ => .restore)
    fun _ => .pure rfl)

theorem handleLambda_to : SimTo bl br (AgreesAt d) (resume rev call) (handleLambda (c.withEvalLimit limit) args env)
    (refLambda c args env) := by
  refine .bind (properListLength_lockstep h) fun _ => .ite (fun _ => raise_to) fun _ => ?_
  refine .bind (car_lockstep h) fun _ => .bind (cdr_lockstep h) fun _ => .bind (isObjType_lockstep h) fun _ => ?_
  exact .ite (fun _ => raise_to) fun _ => value_to (makeClosure_agrees h hc)

include hev

theorem handleDefine_to : SimTo bl br (AgreesAt d) (resume rev call) (handleDefine (c.withEvalLimit limit) ev args env)
    (refDefine c rev args env) := by
  refine .bind (properListLength_lockstep h) fun _ => .ite (fun _ => raise_to) fun _ => ?_
  refine .bind (car_lockstep h) fun _ => .bind (cdr_lockstep h) fun _ => .ite (fun _ => ?_) fun _ => ?_
  · refine .ite (fun _ => raise_to) fun _ => .bind (car_lockstep h) fun _ => ?_
    exact .bind (hev _ _) fun _ => defineProtected_to h hc
  · refine .bind (isObjType_lockstep h) fun _ => .ite (fun _ => .bind (car_lockstep h) fun _ => ?_) fun _ => raise_to
    refine .ite (fun _ => raise_to) fun _ => .bind (cdr_lockstep h) fun _ => ?_
    exact .bind (makeClosure_agrees h hc) fun _ => defineProtected_to h hc

theorem handleSetBang_to :
    SimTo bl br (AgreesAt d) (resume rev call) (handleSetBang (c.withEvalLimit limit) ev args env)
    (refSet rev args env) := by
  refine .bind (properListLength_lockstep h) fun _ => .ite (fun _ => raise_to) fun _ => ?_
  refine .bind (car_lockstep h) fun _ => .ite (fun _ => raise_to) fun _ => .bind (cdr_lockstep h) fun _ => ?_
  refine .bind (car_lockstep h) fun _ => .bind (hev _ _) fun _ => savepoint_left fun n => protect_left hc ?_
  refine .bind (Sim.onError_left ((mlEnvSet_lockstep h).andThen_left fun _ _ => .restore) fun e s t hR => ?_)
    fun _ => .pure rfl
  split
  · exact ⟨{ hR.1 with }, hR.2⟩
  · exact hR

omit hc hev in
theorem letrecPredefine_agrees {inner : Val} {n : Nat} {formName : String} (i : Nat) (cur : Val) :
    Sim bl br (AgreesAt d)
    (letrecPredefine (c.withEvalLimit limit) inner n formName i cur) (refPredefine c inner i cur) := by
  induction i generalizing cur with
  | zero => exact .timeout
  | succ i ih =>
    refine (isObjType_lockstep h).bind fun _ => .ite (fun _ => ?_) fun _ => .pure _
    refine (car_lockstep h).bind fun _ => (bindingOk_lockstep h).bind fun _ => .ite (fun _ => ?_) fun _ => ?_
    · exact raise_agrees.onErr_left fun _ _ => .restore
    · refine (car_lockstep h).bind fun _ => ((mlEnvDefine_lockstep h).onErr_left fun _ _ => .restore).bind fun _ => ?_
      exact (cdr_lockstep h).bind fun _ => ih _

theorem letBindLoop_agrees {inner initEnv : Val} {n : Nat} {formName : String} (i : Nat) (cur : Val) :
    Sim bl br (AgreesAt d) (letBindLoop (c.withEvalLimit limit) ev inner initEnv n formName i cur)
      (refBindings c rev inner initEnv i cur) := by
  induction i generalizing cur with
  | zero => exact .timeout
  | succ i ih =>
    refine (isObjType_lockstep h).bind fun _ => .ite (fun _ => ?_) fun _ => .pure _
    refine (car_lockstep h).bind fun _ => (bindingOk_lockstep h).bind fun _ => .ite (fun _ => ?_) fun _ => ?_
    · exact raise_agrees.onErr_left fun _ _ => .restore
    · refine (car_lockstep h).bind fun _ => (cdr_lockstep h).bind fun _ => (car_lockstep h).bind fun _ => ?_
      refine ((hev _ _).onErr_left fun _ _ => .restore).bind fun _ => SimTo.sim (savepoint_left fun k => ?_)
      refine protectOrRestore_left hc (.bind ?_ fun _ => .bind (cdr_lockstep h) fun _ => (ih _).simTo)
      exact ((mlEnvDefine_lockstep h).andThen_left fun _ _ => .restore).onErr_left fun _ _ => .restore

theorem handleLetFamily_to {starlike recursive : Bool} {formName : String} : SimTo bl br (AgreesAt d) (resume rev call)
    (handleLetFamily (c.withEvalLimit limit) ev args env starlike recursive formName)
    (refLet c rev args env starlike recursive) := by
  refine .bind (properListLength_lockstep h) fun _ => .ite (fun _ => raise_to) fun _ => ?_
  refine .bind (car_lockstep h) fun bindings => .bind (cdr_lockstep h) fun body =>
    .bind (properListLength_lockstep h) fun n => ?_
  cases n with
  | none => exact raise_to
  | some n =>
    refine .bind (h.gcAlloc _ _) fun inner => savepoint_left fun k => protect_left hc ?_
    have hbody : ∀ initEnv, SimTo bl br (AgreesAt d) (resume rev call) (do
        letBindLoop (c.withEvalLimit limit) ev inner initEnv k formName (n + 1) bindings
        (beginTco ev body inner).andThen (mlGcRestore k)) (do
        refBindings c rev inner initEnv (n + 1) bindings
        refBegin rev body inner) :=
      fun _ => .bind (letBindLoop_agrees h hc hev _ _) fun _ => (beginTco_to h hev).andThen fun _ _ => .restore
    exact .ite (fun _ => .bind (letrecPredefine_agrees h _ _) fun _ => hbody _) fun _ => hbody _

theorem dispatch_to {head rest : Val} (hcall : call = refCall c rev head rest env) :
    SimTo bl br (AgreesAt d) (resume rev call) (dispatch (c.withEvalLimit limit) ev head rest env)
      (refPair c rev head rest env) := by
  refine .ite (fun _ => handleQuote_to h) fun _ => .ite (fun _ => handleIf_to h hev) fun _ => ?_
  refine .ite (fun _ => handleDefine_to h hc hev) fun _ => .ite (fun _ => handleSetBang_to h hc hev) fun _ => ?_
  refine .ite (fun _ => handleLambda_to h hc) fun _ => .ite (fun _ => beginTco_to h hev) fun _ => ?_
  refine .ite (fun _ => handleLetFamily_to h hc hev) fun _ => .ite (fun _ => handleLetFamily_to h hc hev) fun _ => ?_
  refine .ite (fun _ => handleLetFamily_to h hc hev) fun _ => .ite (fun _ => handleAndOr_to h hev) fun _ => ?_
  exact .ite (fun _ => handleAndOr_to h hev) fun _ => .ite (fun _ => handleCond_to h hev) fun _ => .pure hcall.symm

/-! ## Calls -/

theorem evalArgList_agrees : Sim bl br (AgreesAt d) (evalArgList (c.withEvalLimit limit) ev args env)
    (refOperands rev args env) := by
  have hloop : ∀ i cur argv, Sim bl br (AgreesAt d) (evalArgLoop (c.withEvalLimit limit) ev env i cur argv) (do
      let vs ← refArgs rev env i cur
      pure (argv ++ vs)) := by
    intro i
    induction i with
    | zero =>
      intro cur argv
      simp only [evalArgLoop, refArgs, pure_bind, List.append_nil]
      exact .pure _
    | succ i ih =>
      intro cur argv
      simp only [refArgs, bind_assoc, pure_bind]
      refine (car_lockstep h).bind fun _ => ((hev _ _).onErr_left fun _ _ => .unprotect).bind fun v => ?_
      refine SimTo.sim (.left (fun _ _ hR => wp_onErr (hR.push hc)) fun _ => .bind (cdr_lockstep h) fun rest => ?_)
      have hrest := ih rest (argv ++ [v])
      simp only [List.append_assoc, List.singleton_append] at hrest
      exact hrest.simTo
  refine (properListLength_lockstep h).bind fun n => ?_
  cases n with
  | none => exact raise_agrees
  | some n =>
    have hn := hloop n args []
    simp only [List.nil_append, bind_pure] at hn
    by_cases h0 : n = 0
    · subst h0
      exact .pure []
    · show Sim _ _ _ (if n = 0 then _ else _) _
      rw [if_neg h0]
      refine SimTo.sim (.left (fun s t hR => wp_mono rawAllocOrFail_wp (fun _ s' hs => ?_) ?_) fun _ => hn.simTo)
      · rw [hs]
        exact ⟨{ hR.1 with }, hR.2⟩
      · rintro e t ⟨-, hz | ⟨k, hk⟩, -⟩
        · omega
        · rw [show (c.withEvalLimit limit).alloc k _ = true from hc k _] at hk
          cases hk

omit hev

theorem buildList_agrees {argv : List Val} {start : Nat} (hstart : start ≤ argv.length) : Sim bl br (AgreesAt d)
    (buildList (c.withEvalLimit limit) argv start argv.length) ((argv.drop start).foldrM (mlGcAllocPair c) mvNil) := by
  have hloop : ∀ n i head, start + i ≤ argv.length → Sim bl br (AgreesAt d)
      (buildListLoop (c.withEvalLimit limit) argv start n i head)
      (((argv.drop start).take i).foldrM (mlGcAllocPair c) head) := by
    intro n i
    induction i with
    | zero => exact fun _ _ => .pure _
    | succ i ih =>
      intro head hi
      have hget : (argv.drop start)[i]? = some argv[start + i] := by
        rw [List.getElem?_drop, List.getElem?_eq_getElem]
      have harg : argvGet argv (start + i) = pure argv[start + i] := by
        unfold argvGet
        rw [List.getElem?_eq_getElem]
      rw [List.take_add_one, hget]
      simp only [buildListLoop, harg, pure_bind, Option.toList_some, List.foldrM_append,
        List.foldrM_cons, List.foldrM_nil]
      refine SimTo.sim (protectOrRestore_left hc (.bind ?_ fun cell => ?_))
      · exact ((h.gcAlloc _ _).andThen_left fun _ _ => .unprotect).onErr_left fun _ _ => .restore
      · exact modify_left (fun _ _ => .setSlot) (ih cell (by omega)).simTo
  have hall := fun n => hloop n (argv.length - start) mvNil (by omega)
  simp only [List.take_of_length_le (Nat.le_of_eq (List.length_drop (l := argv) (i := start)))] at hall
  refine SimTo.sim (savepoint_left fun n => protect_left hc ?_)
  rw [← bind_pure (List.foldrM _ _ _)]
  exact .bind (hall n) fun head => modify_left (fun _ _ => .restore) (.pure rfl)

omit hc in
theorem bindParams_agrees {argv : List Val} {n : Nat} (k i : Nat) (cur : Val) (hk : i + k ≤ argv.length) :
    Sim bl br (AgreesAt d) (bindParams (c.withEvalLimit limit) env argv n k i cur)
      (refParams c env ((argv.drop i).take k) cur) := by
  induction k generalizing i cur with
  | zero => exact .pure _
  | succ k ih =>
    have harg : argvGet argv i = pure argv[i] := by
      unfold argvGet
      rw [List.getElem?_eq_getElem]
    rw [List.drop_eq_getElem_cons (by omega), List.take_succ_cons]
    simp only [bindParams, refParams, harg, pure_bind]
    refine (car_lockstep h).bind fun _ => ((mlEnvDefine_lockstep h).onErr_left fun _ _ => .restore).bind fun _ => ?_
    exact (cdr_lockstep h).bind fun _ => ih _ _ (by omega)

end Handlers

/-! ## Runs from a known state -/

section Runs
variable {c : Config} {s : State} {v : Val} {β : Type}

theorem closureFields_run {cl : Closure} {f : Closure → ML β} (h : s.heap.Has v cl.obj) :
    (closureFields v >>= f) s = f cl s := by
  obtain ⟨a, rfl, ha⟩ := h
  have hread : readObj a s = ⟨.ok cl.obj, s, []⟩ := by
    unfold readObj
    rw [gets_bind_run, ha]
    rfl
  have hrun : closureFields (.obj a) s = ⟨.ok cl, s, []⟩ := by
    unfold closureFields asObj
    simp only [Bind.bind, Prog.bind, hread, Closure.obj]
    rfl
  simp [Bind.bind, Prog.bind, hrun]

theorem gcProtectGet_run {n : Nat} {f : Val → ML β} (h : s.gcProtect[n]? = some v) :
    (gcProtectGet n >>= f) s = f v s := by
  have hrun : gcProtectGet n s = ⟨.ok v, s, []⟩ := by
    unfold gcProtectGet
    rw [gets_bind_run, h]
    rfl
  simp [Bind.bind, Prog.bind, hrun]

/-- Without collections, a closure stays what it is. -/
theorem Heap.Ext.closure {h h' : Heap} {cl : Closure} (hx : h.Ext c h') (hd : ∀ s, c.collectDue s = false)
    (hcl : h.Has v cl.obj) : h'.Has v cl.obj := by
  obtain ⟨a, rfl, ha⟩ := hcl
  obtain ⟨o, ho⟩ := hx.alive hd a _ ha
  obtain ⟨o₀, ho₀, hg⟩ := hx.old a o (Heap.lt_next_of_get ha).2 ho
  cases ha.symm.trans ho₀
  exact ⟨a, rfl, ho.trans (congrArg some hg)⟩

end Runs

/-! ## One turn of the loop -/

section Turn
variable {bl br : Halt Status → Prop} {c : Config} {limit d : Nat} {ev rev : Val → Val → ML Val} {k : Iter → ML Val}
  {s0 s t : State} {f e : Val}
variable (hc : ∀ n size, c.alloc n size = true) (hd : ∀ s, c.collectDue s = false)
  (hev : ∀ form env, Sim bl br (AgreesAt d) (ev form env) (rev form env))
  (hkeeps : ∀ s0 xs form env, Keeps (c.withEvalLimit limit) anyStatus s0 xs (ev form env))
  (hdone : ∀ v, k (.done v) = pure v)
  (hagain : ∀ form env s t, s0.At (c.withEvalLimit limit) [form, env] s → AgreesAt d s t →
    SimAt bl br (AgreesAt d) (k .again) (rev form env) s t)

theorem anyStatus_all (e : Status) : e ≠ .errEvalDepth → anyStatus e := fun _ => trivial

include hc hd in
/-- The frame of a call: the code reads the closure again after it has made the frame. -/
theorem applyClosureBind_agrees {proc : Val} {argv : List Val} {cl : Closure} (hcl : s.heap.Has proc cl.obj)
    (hR : AgreesAt d s t) :
    SimAt bl br (AgreesAt d) (applyClosureBind (c.withEvalLimit limit) proc argv) (refBind c cl argv) s t := by
  have h : Lockstep bl br (c.withEvalLimit limit) c (fun _ _ => True) (AgreesAt d) := lockstep_reference hc hd
  unfold SimAt applyClosureBind
  rw [closureFields_run hcl]
  refine simAt_ite (fun _ => raise_agrees s t hR) fun hmin => simAt_ite (fun _ => raise_agrees s t hR) fun heq => ?_
  have harity : cl.arityMin.toNat ≤ argv.length := by
    cases hv : cl.variadic <;> simp [hv] at hmin heq <;> omega
  have hend : ∀ n env, Sim bl br (AgreesAt d) (do
      modify (mlGcRestore n)
      pure env : ML Val) (pure env : ML Val) :=
    fun _ _ => SimTo.sim (modify_left (fun _ _ => .restore) (.pure rfl))
  have hrest : ∀ env n, Sim bl br (AgreesAt d) (do
      let cur ← bindParams (c.withEvalLimit limit) env argv n cl.arityMin.toNat 0 cl.params
      if cl.variadic then
        if !mlIsSym cur then
          (raise 0 0 (ascii "malformed variadic parameter list") .errSyntax).onErr (mlGcRestore n)
        else
          let restList ← (buildList (c.withEvalLimit limit) argv cl.arityMin.toNat argv.length).onErr (mlGcRestore n)
          (mlEnvDefine (c.withEvalLimit limit) env cur restList).onErr (mlGcRestore n)
      modify (mlGcRestore n)
      pure env) (do
      let rest ← refParams c env (argv.take cl.arityMin.toNat) cl.params
      if cl.variadic then
        if !mlIsSym rest then
          fail .errSyntax
        else
          let restList ← (argv.drop cl.arityMin.toNat).foldrM (mlGcAllocPair c) mvNil
          mlEnvDefine c env rest restList
      pure env) := by
    intro env n
    refine (bindParams_agrees h _ 0 _ (by omega)).bind fun cur => .ite (fun _ => .ite (fun _ => ?_) fun _ => ?_)
      fun _ => hend n env
    · exact (raise_agrees.onErr_left fun _ _ => .restore).bind fun _ => hend n env
    · refine ((buildList_agrees h hc harity).onErr_left fun _ _ => .restore).bind fun _ => ?_
      exact ((mlEnvDefine_lockstep h).onErr_left fun _ _ => .restore).bind fun _ => hend n env
  have hframe : wp Mode.partly (mlGcAllocEnv (c.withEvalLimit limit) cl.env) s (fun _ u => u.heap.Has proc cl.obj)
      (fun _ _ => True) := by
    refine wp_mono (gcAlloc_total (c := c.withEvalLimit limit) (fun _ => trivial) hc (hd s) (by decide)) ?_
      (fun _ _ h => h)
    rintro v u ⟨-, hu⟩
    obtain ⟨a, rfl, ha⟩ := hcl
    rw [hu]
    exact ⟨a, rfl, by rw [Heap.get_alloc, if_neg (Nat.ne_of_lt (Heap.lt_next_of_get ha).2), ha]⟩
  refine simAt_seq (h.gcAlloc _ _ s t hR) hframe fun env s' t' hR' hcl' => ?_
  · unfold SimAt mlGcSavepoint
    rw [gets_bind_run]
    refine simAt_skip (Q := fun _ u => u.heap.Has proc cl.obj ∧ AgreesAt d u t')
      (wp_mono (mlGcProtect_total (c := c.withEvalLimit limit) hc) (fun _ u hu => ?_) (fun _ _ h => h)) fun _ u hu => ?_
    · rw [hu]
      exact ⟨hcl', { hR'.1 with }, hR'.2⟩
    · unfold SimAt
      rw [closureFields_run hu.1]
      exact hrest env _ u t' hu.2

include hdone

theorem finish_turn {n : Nat} {v : Val} : Sim bl br (AgreesAt d) (finish n v >>= k) (pure v : ML Val) := by
  simp only [finish, bind_assoc, pure_bind, hdone]
  exact SimTo.sim (modify_left (fun _ _ => .restore) (.pure rfl))

include hc hd in
theorem applyPrim_turn {n m : Nat} {proc : Val} {argv : List Val} :
    Sim bl br (AgreesAt d) (applyPrim (c.withEvalLimit limit) n m proc argv >>= k) (do
      let p ← primFields proc
      if argv.length < p.arityMin.toNat || argv.length > p.arityMax.toNat then
        fail .errArity
      else
        callPrim c p.fn argv) := by
  have h : Lockstep bl br (c.withEvalLimit limit) c (fun _ _ => True) (AgreesAt d) := lockstep_reference hc hd
  simp only [applyPrim, bind_assoc]
  refine (primFields_lockstep h).bind fun p => ?_
  split
  · exact (raise_agrees.onErr_left fun _ _ hR => (AgreesAt.unprotect hR).restore).then_fail
  · rw [bind_assoc, ← bind_pure (callPrim c p.fn argv)]
    refine Sim.bind (Sim.onErr_left (Sim.andThen_left (callPrim_lockstep h) ?_) fun _ _ => .restore) fun _ =>
      finish_turn hdone
    exact fun _ _ hR => (AgreesAt.unprotect hR).restore

include hagain

omit hdone in
theorem loopWith_turn (hs : s0.At (c.withEvalLimit limit) [f, e] s) (hR : AgreesAt d s t) {form env : Val} :
    SimAt bl br (AgreesAt d) (loopWith s0.gcProtect.length form env >>= k) (rev form env) s t := by
  unfold SimAt
  simp only [loopWith, bind_assoc, pure_bind]
  rw [modify_bind_run, modify_bind_run]
  exact hagain form env _ t hs.setSlots hR.setSlot.setSlot

theorem result_turn (hs : s0.At (c.withEvalLimit limit) [f, e] s) (hR : AgreesAt d s t) {call : ML Val} {m : ML Iter}
    (hcall : SimAt bl br (AgreesAt d) (m >>= k) call s t) (r : SfResult) :
    SimAt bl br (AgreesAt d) ((match r with
      | .tco form env => loopWith s0.gcProtect.length form env
      | .value v => finish s0.gcProtect.length v
      | .notHandled => m) >>= k) (resume rev call r) s t := by
  cases r with
  | notHandled => exact hcall
  | value v => exact finish_turn hdone s t hR
  | tco form env => exact loopWith_turn hagain hs hR

include hc hd hev hkeeps

theorem applyClosure_turn {proc : Val} {argv : List Val} {cl : Closure} (hcl : s.heap.Has proc cl.obj)
    (hs : s0.At (c.withEvalLimit limit) ([f, e, proc] ++ argv) s) (hR : AgreesAt d s t) :
    SimAt bl br (AgreesAt d)
      (applyClosure (c.withEvalLimit limit) ev s0.gcProtect.length (s0.gcProtect.length + 2) proc argv >>= k) (do
      let cl ← closureFields proc
      let env ← refBind c cl argv
      refBegin rev cl.body env) s t := by
  have h : Lockstep bl br (c.withEvalLimit limit) c (fun _ _ => True) (AgreesAt d) := lockstep_reference hc hd
  have hcl' : t.heap.Has proc cl.obj := hR.1.heap ▸ hcl
  unfold SimAt
  rw [closureFields_run hcl']
  simp only [applyClosure, bind_assoc]
  -- the frame is made and the parameters are bound
  let bound := ((applyClosureBind (c.withEvalLimit limit) proc argv).andThen (mlGcUnprotect argv.length)).onErr
    (mlGcRestore s0.gcProtect.length)
  have hbound : SimAt bl br (AgreesAt d) bound (refBind c cl argv) s t :=
    ((applyClosureBind_agrees hc hd hcl hR).andThen_left fun _ _ => .unprotect).onErr_left fun _ _ => .restore
  have hx : wp (s.watch _) bound s (fun _ u => s.heap.Ext (c.withEvalLimit limit) u.heap) (fun _ _ => True) :=
    wp_onErr (wp_andThen (wp_mono (applyClosureBind_keeps anyStatus_all s .refl) (fun _ _ h => h.heap)
      (fun _ _ _ => trivial)))
  refine simAt_seq hbound (wp_and (bindClosure_at anyStatus_all s hs) hx) fun env s' t' hR' hs' => ?_
  have hkept := hs'.2.closure hd hcl
  unfold SimAt
  rw [closureFields_run hkept, modify_bind_run]
  -- the body is run
  refine SimToAt.bind (Q := fun _ => s0.At (c.withEvalLimit limit) [f, e])
    (((beginTco_to h hev).andThen fun _ _ hR => ?_).onErr (fun _ _ => .restore) _ t' ⟨{ hR'.1 with }, hR'.2⟩)
    (closureBody_at anyStatus_all (fun s1 _ => hkeeps s1) _ ⟨{ hs'.1 with }, congrArg (env :: ·) hs'.1.pending⟩)
    fun r u u' hu hs => result_turn hdone hagain hs hu (loopWith_turn hagain hs hu) r
  exact AgreesAt.restore ⟨{ hR.1 with }, hR.2⟩

theorem evalCall_turn {head rest env : Val} (hs : s0.At (c.withEvalLimit limit) [f, e] s) (hR : AgreesAt d s t) :
    SimAt bl br (AgreesAt d) (evalCall (c.withEvalLimit limit) ev s0.gcProtect.length head rest env >>= k)
      (refCall c rev head rest env) s t := by
  have h : Lockstep bl br (c.withEvalLimit limit) c (fun _ _ => True) (AgreesAt d) := lockstep_reference hc hd
  simp only [evalCall, bind_assoc]
  refine simAt_seq ((hev head env).onErr_left (fun _ _ => .restore) s t hR) (onErr_entry (hkeeps _ _ _ _) s hs)
    fun proc s t hR hs => ?_
  unfold SimAt mlGcSavepoint
  rw [gets_bind_run, hs.protect, List.length_append]
  have hpush : wp Mode.fully ((mlGcProtect (c.withEvalLimit limit) proc).onErr (mlGcRestore s0.gcProtect.length)) s
      (fun _ u => s0.At (c.withEvalLimit limit) [f, e, proc] u ∧ AgreesAt d u t) (fun _ _ => False) := by
    refine wp_mono (wp_and (onErr_entry (mlGcProtect_at anyStatus_all) s hs)
      (wp_onErr (E := fun _ _ => False) (hR.push hc))) (fun _ _ h => h) ?_
    exact fun _ _ h => h.2
  refine simAt_skip hpush fun _ s hs => ?_
  refine simAt_seq ((evalArgList_agrees h hc hev).onErr_left (fun _ _ => .restore) s t hs.2)
    (onErr_entry (evalArgList_at anyStatus_all fun s1 _ => hkeeps s1) s hs.1) fun argv s t hR hs => ?_
  refine simAt_skip (wp_emit (Q := fun _ u => u = s) fun _ => ⟨trivial, rfl⟩) fun _ u hu => ?_
  subst u
  refine simAt_seq (E := fun _ _ => True) (isObjType_lockstep h s t hR) (mlIsPrim_wp (M := .partly) False.elim)
    fun b u t' hR' hu => ?_
  obtain ⟨rfl, -⟩ := hu
  cases b with
  | true => exact applyPrim_turn hc hd hdone u t' hR'
  | false =>
    rw [if_neg Bool.false_ne_true, if_neg Bool.false_ne_true, bind_assoc]
    refine simAt_seq (E := fun _ _ => True) (isObjType_lockstep h u t' hR')
      (mlIsClosure_wp (M := .partly) False.elim) fun b v t₂ hR₂ hv => ?_
    obtain ⟨rfl, hb⟩ := hv
    cases b with
    | true =>
      obtain ⟨cl, hcl⟩ := hb.1 rfl
      exact applyClosure_turn hc hd hev hkeeps hdone hagain hcl hs hR₂
    | false =>
      rw [if_neg Bool.false_ne_true, if_neg Bool.false_ne_true, bind_assoc]
      unfold SimAt
      rw [modify_bind_run]
      exact (raise_agrees.onErr_left fun _ _ => .restore).then_fail _ t₂ hR₂.unprotect

theorem evalPair_turn {form env : Val} (hs : s0.At (c.withEvalLimit limit) [f, e] s) (hR : AgreesAt d s t) :
    SimAt bl br (AgreesAt d) (evalPair (c.withEvalLimit limit) ev s0.gcProtect.length form env >>= k) (do
      let head ← car form
      let rest ← cdr form
      if mlIsSym head then refPair c rev head rest env else refCall c rev head rest env) s t := by
  have h : Lockstep bl br (c.withEvalLimit limit) c (fun _ _ => True) (AgreesAt d) := lockstep_reference hc hd
  simp only [evalPair, bind_assoc]
  refine simAt_seq (E := fun _ _ => True) (car_lockstep h s t hR) (car_wp (M := .partly) False.elim)
    fun head s₁ t₁ hR₁ hs₁ => ?_
  obtain ⟨rfl, -⟩ := hs₁
  refine simAt_seq (E := fun _ _ => True) (cdr_lockstep h s₁ t₁ hR₁) (cdr_wp (M := .partly) False.elim)
    fun rest s₂ t₂ hR₂ hs₂ => ?_
  obtain ⟨rfl, -⟩ := hs₂
  have hcall : ∀ s t, s0.At (c.withEvalLimit limit) [f, e] s → AgreesAt d s t → SimAt bl br (AgreesAt d)
      (evalCall (c.withEvalLimit limit) ev s0.gcProtect.length head rest env >>= k) (refCall c rev head rest env) s t :=
    fun s t hs hR => evalCall_turn hc hd hev hkeeps hdone hagain hs hR
  by_cases hsym : mlIsSym head
  · rw [if_pos hsym, if_pos hsym, bind_assoc]
    refine SimToAt.bind ((dispatch_to h hc hev rfl).onErr (fun _ _ => .restore) s₂ t₂ hR₂)
      (onErr_entry (dispatch_keeps anyStatus_all fun s1 _ => hkeeps s1) s₂ hs) fun r s₃ t₃ hR₃ hs₃ => ?_
    cases r with
    | value v => exact finish_turn hdone s₃ t₃ hR₃
    | tco form env => exact loopWith_turn hagain hs₃ hR₃
    | notHandled => exact hcall s₃ t₃ hs₃ hR₃
  · rw [if_neg hsym, if_neg hsym, pure_bind]
    exact hcall s₂ t₂ hs hR₂

/-- A turn of the loop, and what follows it, is the rule for the form in the slots. -/
theorem evalIter_turn {form env : Val} (hs : s0.At (c.withEvalLimit limit) [form, env] s) (hR : AgreesAt d s t) :
    SimAt bl br (AgreesAt d) (evalIter (c.withEvalLimit limit) ev s0.gcProtect.length >>= k)
      (refForm c rev form env) s t := by
  have h : Lockstep bl br (c.withEvalLimit limit) c (fun _ _ => True) (AgreesAt d) := lockstep_reference hc hd
  simp only [evalIter, bind_assoc]
  unfold SimAt
  rw [gcProtectGet_run (v := form) (by simp [hs.protect]), gcProtectGet_run (v := env) (by simp [hs.protect])]
  cases form with
  | fix p => exact finish_turn hdone s t hR
  | imm i => exact finish_turn hdone s t hR
  | sym i =>
    show SimAt bl br (AgreesAt d) ((_ >>= finish s0.gcProtect.length) >>= k) (mlEnvLookup env (.sym i)) s t
    have hname : Sim bl br (AgreesAt d) (onUnbound (ascii "unbound variable `") (.sym i) (mlEnvLookup env (.sym i)))
        (mlEnvLookup env (.sym i)) := (mlEnvLookup_lockstep h).onError_left fun e s t hR => by
      split
      · exact ⟨{ hR.1 with }, hR.2⟩
      · exact hR
    rw [bind_assoc]
    have hsim := Sim.bind (hname.onErr_left (c := mlGcRestore s0.gcProtect.length) fun _ _ => .restore) fun v =>
      finish_turn hdone (n := s0.gcProtect.length) (v := v)
    rw [bind_pure] at hsim
    exact hsim s t hR
  | obj a =>
    show SimAt bl br (AgreesAt d) ((mlIsPair (.obj a) >>= _) >>= k) _ s t
    rw [bind_assoc]
    refine simAt_seq (E := fun _ _ => True) (isObjType_lockstep h s t hR) (mlIsPair_wp (M := .partly) False.elim)
      fun b s₁ t₁ hR₁ hs₁ => ?_
    obtain ⟨rfl, -⟩ := hs₁
    cases b with
    | true => exact evalPair_turn hc hd hev hkeeps hdone hagain hs hR₁
    | false => exact finish_turn hdone s₁ t₁ hR₁
  | reserved w =>
    show SimAt bl br (AgreesAt d) ((emit .unknownTag >>= fun _ => _) >>= k) (fail .errType) s t
    rw [bind_assoc]
    refine simAt_skip (Q := fun _ u => u = s) (wp_emit fun _ => ⟨trivial, rfl⟩) ?_
    rintro _ u rfl
    exact (raise_agrees.onErr_left fun _ _ => .restore).then_fail u t hR

end Turn

/-! ## Whole evaluations -/

section Evaluations
variable {bl br : Halt Status → Prop} {c : Config} {limit d : Nat} {ev rev : Val → Val → ML Val}
variable (hc : ∀ n size, c.alloc n size = true) (hd : ∀ s, c.collectDue s = false)
include hc

/-- An activation goes as the semantics, if its loop does from every head. -/
theorem evalBody_agrees {turns : Nat} {form env : Val}
    (hloop : ∀ (s0 : State) form env s t, s0.At (c.withEvalLimit limit) [form, env] s → AgreesAt d s t →
      SimAt bl br (AgreesAt d) (evalLoop (c.withEvalLimit limit) ev s0.gcProtect.length turns) (rev form env) s t) :
    Sim bl br (AgreesAt d) (evalBody (c.withEvalLimit limit) ev turns form env) (rev form env) := by
  intro s t hR
  unfold SimAt evalBody mlGcSavepoint
  rw [gets_bind_run]
  have hfirst : wp Mode.fully (mlGcProtect (c.withEvalLimit limit) form) s
      (fun _ u => s.At (c.withEvalLimit limit) [form] u ∧ AgreesAt d u t) (fun _ _ => False) :=
    wp_mono (wp_and (mlGcProtect_at anyStatus_all s .refl) (hR.push (E := fun _ _ => False) hc)) (fun _ _ h => h)
      fun _ _ h => h.2
  refine simAt_skip hfirst fun _ s₁ hs₁ => ?_
  have hsecond : wp Mode.fully ((mlGcProtect (c.withEvalLimit limit) env).onErr (mlGcRestore s.gcProtect.length)) s₁
      (fun _ u => s.At (c.withEvalLimit limit) [form, env] u ∧ AgreesAt d u t) (fun _ _ => False) :=
    wp_mono (wp_and (onErr_entry (mlGcProtect_at anyStatus_all) s₁ hs₁.1)
      (wp_onErr (E := fun _ _ => False) (hs₁.2.push hc))) (fun _ _ h => h) fun _ _ h => h.2
  exact simAt_skip hsecond fun _ s₂ hs₂ => hloop s form env s₂ t hs₂.1 hs₂.2

omit hc in
theorem mlEval_keeps_any {n : Nat} (s0 : State) (xs : List Val) (form env : Val) :
    Keeps (c.withEvalLimit limit) anyStatus s0 xs (mlEval (c.withEvalLimit limit) n form env) :=
  mlEval_keeps (fun _ => trivial) n s0 xs form env

/-- One level of evaluation: below the limit, or above it where that is not compared. -/
theorem mlEval_level {n : Nat} {form env : Val} (hlimit : d < limit ∨ bl (.err .errEvalDepth))
    (hstuck : bl .stuck ∨ br .stuck) (htime : bl .timeout ∨ br .timeout)
    (hloop : ∀ (s0 : State) form env s t, s0.At (c.withEvalLimit limit) [form, env] s → AgreesAt (d + 1) s t →
      SimAt bl br (AgreesAt (d + 1))
        (evalLoop (c.withEvalLimit limit) (mlEval (c.withEvalLimit limit) n) s0.gcProtect.length (n + 1))
          (rev form env) s t) :
    Sim bl br (AgreesAt d) (mlEval (c.withEvalLimit limit) (n + 1) form env) (rev form env) := by
  intro s t hR
  unfold SimAt mlEval
  rw [gets_bind_run, hR.2]
  by_cases hd' : d ≥ (c.withEvalLimit limit).maxEvalDepth
  · rw [if_pos hd']
    have hbl := hlimit.resolve_left (Nat.not_lt.2 hd')
    show Run.Sim bl br (AgreesAt d) ⟨.error (.err .errEvalDepth), _, _⟩ _
    unfold Run.Sim
    cases (rev form env t).res with
    | error _ => exact .inl hbl
    | ok _ => exact hbl
  · rw [if_neg hd', modify_bind_run]
    have hin : AgreesAt (d + 1) { s with evalDepth := s.evalDepth + 1 } t := ⟨{ hR.1 with }, congrArg (· + 1) hR.2⟩
    refine (evalBody_agrees hc hloop _ t hin).leave (fun s t h => ?_) hstuck htime
    exact ⟨{ h.1 with }, by simp [leaveEval, h.2]⟩

/-- What stops a run without an outcome. -/
def noOutcome (h : Halt Status) : Prop := h = .stuck ∨ h = .timeout

/-- What stops a run at the depth limit, or without an outcome. -/
def noOutcomeOrDepth (h : Halt Status) : Prop := noOutcome h ∨ h = .err .errEvalDepth

/-- The height of the derivations that an evaluation with count `n` goes through. -/
def derivationHeight : Nat → Nat
  | 0 => 0
  | n + 1 => derivationHeight n + (n + 1)

include hd

/-- Every outcome of an evaluation is one of the semantics, the depth limit's apart. -/
theorem mlEval_sound_under (hbl : ∀ h, noOutcome h → bl h) (n j : Nat) (hj : derivationHeight n ≤ j)
    (hlimit : d + n ≤ limit ∨ bl (.err .errEvalDepth)) (form env : Val) :
    Sim bl (fun _ => False) (AgreesAt d) (mlEval (c.withEvalLimit limit) n form env) (refEval c j form env) := by
  have hnone : ∀ {d : Nat} (m : ML Val) s t, SimAt bl (fun _ => False) (AgreesAt d) (timeout : ML Val) m s t :=
    fun _ _ _ => simAt_of_left rfl (hbl _ (.inr rfl))
  induction n generalizing d j form env with
  | zero => exact fun s t _ => hnone _ s t
  | succ n ih =>
    have hinner : d + 1 + n ≤ limit ∨ bl (.err .errEvalDepth) := hlimit.imp_left (by omega)
    have hloop : ∀ turns j, derivationHeight n + turns ≤ j → ∀ (s0 : State) form env s t,
        s0.At (c.withEvalLimit limit) [form, env] s → AgreesAt (d + 1) s t →
        SimAt bl (fun _ => False) (AgreesAt (d + 1))
          (evalLoop (c.withEvalLimit limit) (mlEval (c.withEvalLimit limit) n) s0.gcProtect.length turns)
          (refEval c j form env) s t := by
      intro turns
      induction turns with
      | zero => exact fun _ _ _ _ _ s t _ _ => hnone _ s t
      | succ turns iht =>
        intro j hj s0 form env s t hs hR
        obtain ⟨j, rfl⟩ : ∃ i, j = i + 1 := ⟨j - 1, by omega⟩
        exact evalIter_turn hc hd (ih j (by omega) hinner) mlEval_keeps_any (fun _ => rfl) (iht j (by omega) s0) hs hR
    have hdepth : d < limit ∨ bl (.err .errEvalDepth) := hlimit.imp_left (by omega)
    exact mlEval_level hc hdepth (.inl (hbl _ (.inl rfl))) (.inl (hbl _ (.inr rfl))) (hloop (n + 1) j hj)

theorem mlEval_sound (n j : Nat) (hj : derivationHeight n ≤ j) (form env : Val) :
    Sim noOutcomeOrDepth (fun _ => False) (AgreesAt d) (mlEval (c.withEvalLimit limit) n form env)
      (refEval c j form env) :=
  mlEval_sound_under hc hd (fun _ => .inl) n j hj (.inr (.inr rfl)) form env

/-- Every outcome of the semantics is one of an evaluation with a limit large enough. -/
theorem mlEval_complete (j n : Nat) (hn : j ≤ n) (hlimit : d + j ≤ limit) (form env : Val) :
    Sim (fun _ => False) noOutcome (AgreesAt d) (mlEval (c.withEvalLimit limit) n form env) (refEval c j form env) := by
  have hnone : ∀ {d : Nat} (m : ML Val) (form env : Val) s t,
      SimAt (fun _ => False) noOutcome (AgreesAt d) m (refEval c 0 form env) s t := by
    intro d m form env s t
    unfold SimAt Run.Sim
    cases (m s).res with
    | error _ => exact .inr (.inl (.inr rfl))
    | ok _ => exact .inr rfl
  induction j using Nat.strongRecOn generalizing d n form env with
  | _ j ih =>
    cases j with
    | zero => exact fun s t _ => hnone _ form env s t
    | succ j =>
      obtain ⟨n, rfl⟩ : ∃ i, n = i + 1 := ⟨n - 1, by omega⟩
      have hloop : ∀ i turns, i ≤ j + 1 → i ≤ turns → ∀ (s0 : State) form env s t,
          s0.At (c.withEvalLimit limit) [form, env] s → AgreesAt (d + 1) s t →
          SimAt (fun _ => False) noOutcome (AgreesAt (d + 1))
            (evalLoop (c.withEvalLimit limit) (mlEval (c.withEvalLimit limit) n) s0.gcProtect.length turns)
            (refEval c i form env) s t := by
        intro i
        induction i with
        | zero => exact fun _ _ _ _ form env s t _ _ => hnone _ form env s t
        | succ i iht =>
          intro turns hi hturns s0 form env s t hs hR
          obtain ⟨turns, rfl⟩ : ∃ k, turns = k + 1 := ⟨turns - 1, by omega⟩
          exact evalIter_turn hc hd (ih i (by omega) n (by omega) (by omega)) mlEval_keeps_any (fun _ => rfl)
            (iht turns (by omega) (by omega) s0) hs hR
      exact mlEval_level hc (.inl (by omega)) (.inr (.inl rfl)) (.inr (.inr rfl))
        (hloop (j + 1) (n + 1) (Nat.le_refl _) hn)

end Evaluations

/-- The semantics derives the outcome `o` for the form in `env`, and the state `t`. -/
def Derives (c : Config) (s : State) (form env : Val) (o : Except Status Val) (t : State) : Prop :=
  ∃ j, (refEval c j form env s).Ends o ∧ (refEval c j form env s).state = t

/-- Without collections and with an allocator that grants every request: whatever `ml_eval`
returns, other than that a depth limit was reached, the semantics derives, with the same
heap and so the same frames, and the same output; and whatever the semantics derives,
`ml_eval` returns under every limit from some limit on. -/
theorem mlEval_refines (c : Config) (hc : ∀ n size, c.alloc n size = true) (hd : ∀ s, c.collectDue s = false)
    (form env : Val) (s : State) :
    (∀ n o, (mlEval c n form env s).Ends o → o ≠ .error .errEvalDepth →
      ∃ t, Derives c s form env o t ∧ Agrees (mlEval c n form env s).state t) ∧
    (∀ o t, Derives c s form env o t → ∃ least, ∀ limit ≥ least, ∀ n ≥ least,
      (mlEval (c.withEvalLimit limit) n form env s).Ends o ∧
        Agrees (mlEval (c.withEvalLimit limit) n form env s).state t) := by
  have hs : AgreesAt s.evalDepth s s := ⟨⟨rfl, rfl, rfl, rfl, rfl, rfl, rfl⟩, rfl⟩
  constructor
  · intro n o ho hne
    have h : SimAt noOutcomeOrDepth (fun _ => False) (AgreesAt s.evalDepth) (mlEval c n form env)
        (refEval c (derivationHeight n) form env) s s := mlEval_sound hc hd n _ (Nat.le_refl _) form env s s hs
    have hcompared : ∀ e, o = .error e → ¬ noOutcomeOrDepth (.err e) := by
      rintro e he ((hx | hx) | hx)
      · cases hx
      · cases hx
      · exact hne (he.trans (congrArg _ (Halt.err.inj hx)))
    obtain ⟨hends, hR⟩ := h.ends ho hcompared (fun _ => id)
    exact ⟨_, ⟨_, hends, rfl⟩, hR.1⟩
  · rintro o t ⟨j, ho, rfl⟩
    refine ⟨s.evalDepth + j, fun limit hl n hn => ?_⟩
    have h := mlEval_complete hc hd j n (by omega) hl form env s s hs
    have hcompared : ∀ e, o = .error e → ¬ noOutcome (.err e) := by
      rintro e - (hx | hx) <;> cases hx
    obtain ⟨hends, hR⟩ := h.ends_left ho (fun _ => id) hcompared
    exact ⟨hends, hR.1⟩

theorem mlEval_refines_keepsFrame :
    ∃ t, Derives Config.created.withoutCollections (State.given .keepsFrame) Tree.keepsFrame.value (.obj 1)
      (.ok (mlMakeFix 42)) t := by
  obtain ⟨hsound, -⟩ := mlEval_refines Config.created.withoutCollections (fun _ _ => rfl) (fun _ => rfl)
    Tree.keepsFrame.value (.obj 1) (State.given .keepsFrame)
  have hrun : (mlEval Config.created.withoutCollections 6 Tree.keepsFrame.value (.obj 1) (State.given .keepsFrame)).Ends
      (.ok (mlMakeFix 42)) :=
    show (mlEval Config.created.withoutCollections 6 Tree.keepsFrame.value (.obj 1) (State.given .keepsFrame)).res
      = .ok (mlMakeFix 42) by decide +kernel
  obtain ⟨t, ht, -⟩ := hsound 6 _ hrun (by simp)
  exact ⟨t, ht⟩

end Microlisp
