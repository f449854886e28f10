import Microlisp.Tidy.Memory
/-!
# Tables, printer and primitives keep a heap tidy
-/
namespace Microlisp

open Prog

section Tables
variable {c : Config} {vs : List Val} {name value env v w : Val} {n : Nat}

/-! ## Symbols and frames -/

theorem mlSymIntern_tidy {b : Nat} {name : Bytes} : Tidies c b vs (mlSymIntern c name) fun v => [v] := by
  have hsym : ∀ i, Tidies c b vs (pure (mlMakeSym i) : ML Val) fun v => [v] := fun i => .known (.inr fun _ => trivial)
  have hadd : ∀ entries : List Bytes, Tidies c b vs (if entries.length > 0x0FFFFFFF then
      fail .errNomem
    else do
      rawAllocOrFail c (name.length + 1)
      modify fun s => { s with symtab := ⟨s.symtab.entries ++ [name], s.symtab.capacity⟩ }
      pure (mlMakeSym entries.length)) fun v => [v] := by
    intro entries
    apply Tidies.ite .fail
    apply Tidies.rawAllocOrFail.seq
    intro _
    exact .seq (.modify fun s hs => hs.of_eq rfl fun _ hv => hv) fun _ => hsym _
  apply (Tidies.reads .gets).seq
  intro entries
  split
  · exact hsym _
  · apply (Tidies.reads .gets).seq
    intro capacity
    apply Tidies.ite _ (hadd entries)
    apply Tidies.rawAllocOrFail.seq
    intro _
    exact .seq (.modify fun s hs => hs.of_eq rfl fun _ hv => hv) fun _ => hadd entries

/-- The bindings after an assignment are old ones, or the new one. -/
theorem mem_assign {bs bs' : List (Val × Val)} (h : assign name value bs = some bs') :
    ∀ b ∈ bs', b ∈ bs ∨ b = (name, value) := by
  induction bs generalizing bs' with
  | nil => cases h
  | cons b₀ bs ih =>
    simp only [assign] at h
    split at h
    · cases h
      intro b hb
      rcases List.mem_cons.1 hb with rfl | hb
      · exact .inr rfl
      · exact .inl (List.mem_cons_of_mem _ hb)
    · obtain ⟨bs₁, hbs, rfl⟩ := Option.map_eq_some_iff.1 h
      intro b hb
      rcases List.mem_cons.1 hb with rfl | hb
      · exact .inl List.mem_cons_self
      · exact (ih hbs b hb).imp_left (List.mem_cons_of_mem _)

/-- A state in which `env` is the frame `f`. -/
def State.CtxFrame (c : Config) (vs : List Val) (env : Val) (f : Frame) (s : State) : Prop :=
  s.Ctx c 0 vs ∧ s.heap.Has env f.obj

theorem State.CtxFrame.fits {s : State} {f : Frame} (h : s.CtxFrame c vs env f) :
    f.parent.Fit s.heap.next ∧ ∀ b ∈ f.bindings, b.1.Fit s.heap.next ∧ b.2.Fit s.heap.next := by
  obtain ⟨hs, a, -, ha⟩ := h
  have hfit := hs.heap.fit a _ ha
  constructor
  · exact hfit _ (by simp [Frame.obj, Obj.refs])
  · intro b hb
    constructor
    · exact hfit _ (List.mem_cons_of_mem _ (List.mem_flatMap.2 ⟨b, hb, by simp⟩))
    · exact hfit _ (List.mem_cons_of_mem _ (List.mem_flatMap.2 ⟨b, hb, by simp⟩))

theorem envFields_tidy {E : Status → State → Prop} :
    Triple tidyMode (State.Ctx c 0 vs) (envFields env) (State.CtxFrame c vs env) E := by
  intro s hs
  apply wp_mono (envFields_wp False.elim) _ fun _ _ h => h
  rintro f t ⟨rfl, hf⟩
  exact ⟨hs, hf⟩

/-- Writing back a frame whose bindings are known. -/
theorem writeObj_frame_tidy {f : Frame} {bs : List (Val × Val)} {k : Nat}
    (hbs : ∀ b ∈ bs, b ∈ f.bindings ∨ b.1.Known vs ∧ b.2.Known vs) :
    Triple tidyMode (State.CtxFrame c vs env f) (writeObj env (.env f.parent bs k)) (fun _ => State.Ctx c 0 vs)
      (fun _ t => t.Tidy c) := by
  intro s hs
  obtain ⟨a, rfl, ha⟩ := hs.2
  have hfit : ∀ b ∈ bs, b.1.Fit s.heap.next ∧ b.2.Fit s.heap.next := by
    intro b hb
    rcases hbs b hb with hold | ⟨hname, hvalue⟩
    · exact hs.fits.2 b hold
    · exact ⟨hs.1.known hname, hs.1.known hvalue⟩
  have hheap : (s.heap.set a (.env f.parent bs k)).Tidy := hs.1.heap.setFrame ha hfit
  apply wp_mono (writeObj_wp False.elim _) _ fun _ _ h => h
  · rintro _ ⟨⟩
    exact hheap
  · rintro _ t ⟨_, ⟨⟩, rfl⟩
    exact State.Tidy.ctx_zero ⟨hheap, hs.1.protect, hs.1.toplevel⟩ hs.1.fits

theorem envGrow_tidy {f : Frame} {k : Nat} :
    Triple tidyMode (State.CtxFrame c vs env f) (envGrow c k) (fun _ => State.CtxFrame c vs env f)
      (fun _ t => t.Tidy c) := by
  have halloc : ∀ size, Triple tidyMode (State.CtxFrame c vs env f) (rawAllocOrFail c size)
      (fun _ => State.CtxFrame c vs env f) (fun _ t => t.Tidy c) := by
    rintro size s ⟨hs, hf⟩
    apply wp_mono rawAllocOrFail_wp
    · intro _ t ht
      rw [ht]
      exact ⟨hs.of_eq rfl fun _ hv => hv, hf⟩
    · rintro e t ⟨-, -, ht⟩
      rw [ht]
      exact hs.toTidy.of_eq rfl fun _ hv => hv
  exact .seq (halloc _) fun _ => .seq (halloc _) fun _ => .pure fun _ h => h

/-- An assignment in a frame. -/
theorem assign_tidy {f : Frame} {bs : List (Val × Val)} {k : Nat} (hbs : assign name value f.bindings = some bs)
    (hname : name.Known vs) (hvalue : value.Known vs) :
    Triple tidyMode (State.CtxFrame c vs env f) (writeObj env (.env f.parent bs k)) (fun _ => State.Ctx c 0 vs)
      (fun _ t => t.Tidy c) := by
  apply writeObj_frame_tidy
  intro b hb
  rcases mem_assign hbs b hb with hold | rfl
  · exact .inl hold
  · exact .inr ⟨hname, hvalue⟩

theorem mlEnvDefine_tidy (hname : name.Known vs) (hvalue : value.Known vs) :
    Tidies c 0 vs (mlEnvDefine c env name value) fun _ => [] := by
  apply (Tidies.reads isObjType_reads).seq
  intro ok
  apply Tidies.ite .fail
  apply Triple.bind envFields_tidy
  intro f
  split
  · rename_i bs hbs
    exact assign_tidy hbs hname hvalue
  · have hwrite : ∀ k, Triple tidyMode (State.CtxFrame c vs env f)
        (writeObj env (.env f.parent (f.bindings ++ [(name, value)]) k)) (fun _ => State.Ctx c 0 vs)
          (fun _ t => t.Tidy c) := by
      intro k
      apply writeObj_frame_tidy
      intro b hb
      rcases List.mem_append.1 hb with hb | hb
      · exact .inl hb
      · rw [List.mem_singleton.1 hb]
        exact .inr ⟨hname, hvalue⟩
    apply Triple.ite
    · exact fun _ => .bind envGrow_tidy hwrite
    · exact fun _ => .seq (.pure fun _ h => h) hwrite

theorem mlEnvSet_tidy (hname : name.Known vs) (hvalue : value.Known vs) :
    Tidies c 0 vs (mlEnvSet env name value) fun _ => [] := by
  have hloop : ∀ n cur, Tidies c 0 vs (envSetLoop name value n cur) fun _ => [] := by
    intro n
    induction n with
    | zero => exact fun _ => .timeout
    | succ n ih =>
      intro cur
      apply (Tidies.reads isObjType_reads).seq
      intro _
      apply Tidies.ite _ .fail
      apply Triple.bind envFields_tidy
      intro f
      split
      · rename_i bs hbs
        exact assign_tidy hbs hname hvalue
      · exact (ih f.parent).conseq (fun _ h => h.1) (fun _ _ h => h) (fun _ _ h => h)
  exact .ite (.seq (.reads .gets) fun bound => hloop bound env) .fail

theorem mlEnvLookup_tidy : Tidies c 0 vs (mlEnvLookup env name) fun v => [v] := by
  have hloop : ∀ n cur, Tidies c 0 vs (envLookupLoop name n cur) fun v => [v] := by
    intro n
    induction n with
    | zero => exact fun _ => .timeout
    | succ n ih =>
      intro cur
      apply (Tidies.reads isObjType_reads).seq
      intro _
      apply Tidies.ite _ .fail
      apply Triple.bind envFields_tidy
      intro f
      split
      · rename_i b hb
        apply Triple.pure
        intro s hs
        apply hs.1.add _ fun _ _ => Val.since_zero
        intro v hv
        rw [List.mem_singleton.1 hv]
        exact (hs.fits.2 b (List.mem_of_find?_eq_some hb)).2
      · exact (ih f.parent).conseq (fun _ h => h.1) (fun _ _ h => h) (fun _ _ h => h)
  exact .ite (.seq (.reads .gets) fun bound => hloop bound env) .fail

/-! ## Equality -/

theorem valueEqual_tidy (n : Nat) (a b : Val) : Tidies c 0 vs (valueEqual c n a b) fun _ => [] := by
  have hleave : ∀ b ws s, s.Ctx c b ws → (leaveEqual s).Ctx c b ws := fun _ _ _ hs => hs.of_eq rfl fun _ hv => hv
  induction n generalizing a b with
  | zero => exact .timeout
  | succ n ih =>
    apply (Tidies.reads .gets).seq
    intro depth
    apply Tidies.ite .raise
    apply (Tidies.reads mlValueEqv_reads).seq
    intro eqv
    apply Tidies.ite .none
    refine .seq (.reads isObjType_reads) fun _ => .ite .none (.seq (.reads isObjType_reads) fun _ => .ite .none ?_)
    refine .seq (.reads car_reads) fun carA => .seq (.reads car_reads) fun carB => ?_
    refine .seq (.modify fun s hs => hs.of_eq rfl fun _ hv => hv) fun _ => ?_
    refine .seq ((ih carA carB).onErr fun s hs => hs.of_eq rfl fun _ hv => hv) fun carEq => .ite ?_ ?_
    · exact .seq (.modify (hleave _ _)) fun _ => .none
    · exact .seq (.reads cdr_reads) fun cdrA => .seq (.reads cdr_reads) fun cdrB => (ih cdrA cdrB).andThen hleave

/-! ## Printer -/

section Printing
variable {β : Type} {out : Sink β} {user : β} {writeStyle : Bool}
variable (hout : ∀ user bytes, Tidies c 0 vs (out user bytes) fun _ => [])
include hout

theorem emitTo_tidy {bytes : Bytes} : Tidies c 0 vs (emitTo out user bytes) fun _ => [] := .ite .none (hout _ _)

theorem emitQuotedLoop_tidy (bs run : Bytes) (user : β) :
    Tidies c 0 vs (emitQuotedLoop out bs run user) fun _ => [] := by
  induction bs generalizing run user with
  | nil => exact emitTo_tidy hout
  | cons b bs ih =>
    apply Tidies.ite
    · exact .seq (emitTo_tidy hout) fun _ => .seq (emitTo_tidy hout) fun _ => ih _ _
    · exact ih _ _

theorem emitStringQuoted_tidy {bytes : Bytes} : Tidies c 0 vs (emitStringQuoted out user bytes) fun _ => [] :=
  .seq (emitTo_tidy hout) fun _ => .seq (emitQuotedLoop_tidy hout _ _ _) fun _ => emitTo_tidy hout

theorem printSpine_tidy {printValue : Val → β → ML β} (hp : ∀ v user, Tidies c 0 vs (printValue v user) fun _ => [])
    (n : Nat) (rest : Val) (user : β) : Tidies c 0 vs (printSpine out printValue n rest user) fun _ => [] := by
  induction n generalizing rest user with
  | zero => exact .timeout
  | succ n ih =>
    apply (Tidies.reads isObjType_reads).seq
    intro _
    apply Tidies.ite
    · refine .seq (emitTo_tidy hout) fun _ => .seq (.reads car_reads) fun elem => .seq (hp _ _) fun _ => ?_
      exact .seq (.reads cdr_reads) fun _ => ih _ _
    · exact .ite (.seq (emitTo_tidy hout) fun _ => hp _ _) .none

theorem printObject_tidy {printValue : Val → β → ML β} (hp : ∀ v user, Tidies c 0 vs (printValue v user) fun _ => []) :
    Tidies c 0 vs (printObject out writeStyle printValue v user) fun _ => [] := by
  refine .seq (.reads isObjType_reads) fun _ => .ite (.seq (.reads stringBytes_reads) fun _ => .ite ?_ ?_) ?_
  · exact emitStringQuoted_tidy hout
  · exact emitTo_tidy hout
  refine .seq (.reads isObjType_reads) fun _ => .ite (.seq (emitTo_tidy hout) fun _ => .seq ?_ fun _ => ?_) ?_
  · refine .seq (.reads car_reads) fun _ => .seq (hp _ _) fun _ => .seq (.reads cdr_reads) fun _ => ?_
    exact .seq (.reads .gets) fun _ => printSpine_tidy hout hp _ _ _
  · exact emitTo_tidy hout
  refine .seq (.reads isObjType_reads) fun _ => .ite (.seq (.reads primFields_reads) fun _ => emitTo_tidy hout) ?_
  refine .seq (.reads isObjType_reads) fun _ => .ite (emitTo_tidy hout) ?_
  exact .seq (.reads isObjType_reads) fun _ => .ite (emitTo_tidy hout) (emitTo_tidy hout)

theorem mlPrint_tidy : Tidies c 0 vs (mlPrint out c v writeStyle user) fun _ => [] := by
  have hprint : ∀ n v user, Tidies c 0 vs (printValue out c writeStyle n v user) fun _ => [] := by
    intro n
    induction n with
    | zero => exact fun _ _ => .timeout
    | succ n ih =>
      intro v user
      apply (Tidies.reads .gets).seq
      intro depth
      apply Tidies.ite .raise
      refine .seq (.modify fun s hs => hs.of_eq rfl fun _ hv => hv) fun _ => ?_
      refine Tidies.andThen ?_ fun _ _ _ hs => hs.of_eq rfl fun _ hv => hv
      cases v with
      | fix p => exact emitTo_tidy hout
      | imm i => cases i <;> exact emitTo_tidy hout
      | sym i => exact .seq (.reads .gets) fun _ => emitTo_tidy hout
      | obj a => exact printObject_tidy hout ih
      | reserved w => exact printObject_tidy hout ih
  exact .seq (.reads .gets) fun _ => hprint _ v user

end Printing

theorem printBufSink_tidy {pb : PrintBuf} {bytes : Bytes} : Tidies c 0 vs (printBufSink c pb bytes) fun _ => [] := by
  apply Tidies.ite .fail
  apply Tidies.ite _ .none
  split
  · exact .fail
  · exact Tidies.rawAllocOrFail.seq fun _ => .none

theorem mlPrintToAlloc_tidy {writeStyle : Bool} : Tidies c 0 vs (mlPrintToAlloc c v writeStyle) fun _ => [] := by
  apply (mlPrint_tidy fun _ _ => printBufSink_tidy).seq
  intro pb
  exact .ite (Tidies.rawAllocOrFail.seq fun _ => .none) .none

theorem stateOutputSink_tidy {user : Unit} {bytes : Bytes} : Tidies c 0 vs (stateOutputSink c user bytes) fun _ => [] :=
  .seq (.reads .gets) fun _ => .seq (.modify fun _ hs => hs.of_eq rfl fun _ hv => hv) fun _ => .ite .fail .none

theorem stateOutputFlush_tidy : Tidies c 0 vs (stateOutputFlush c) fun _ => [] :=
  .seq (.reads .gets) fun _ => .seq (.modify fun _ hs => hs.of_eq rfl fun _ hv => hv) fun _ => .ite .none .fail

end Tables

/-! ## Primitives -/

section Primitives
variable {c : Config} {b : Nat} {vs argv : List Val} {v w : Val} {i : Nat}

theorem plain_imm {i : Imm} : (Val.imm i).Plain := trivial

theorem Val.Plain.known (h : v.Plain) : v.Known vs := .inr fun _ => h.fit

theorem Tidies.plain (h : v.Plain) : Tidies c b vs (Pure.pure v : ML Val) fun v => [v] := .known h.known

/-- What computes a plain value and changes nothing. -/
theorem Tidies.computes {m : ML Val} (hvs : ∀ v ∈ argv, v.Known vs)
    (h : ∀ s, (∀ v ∈ argv, v.InRange) → wp tidyMode m s (PlainResult s) (OnlyError s)) :
    Tidies c b vs m fun v => [v] := by
  intro s hs
  apply wp_mono (h s fun v hv => (hs.known (hvs v hv)).inRange)
  · rintro v _ ⟨rfl, hv⟩
    exact hs.add (fun w hw => by rw [List.mem_singleton.1 hw]; exact hv.fit)
      (fun w hw => by rw [List.mem_singleton.1 hw]; exact hs.known_since hv.known)
  · intro e t ht
    rw [ht]
    exact hs.toTidy.of_eq rfl fun _ hv => hv

theorem argvGet_tidy (hvs : ∀ v ∈ argv, v.Known vs) : Tidies c 0 vs (argvGet argv i) fun v => [v] := by
  unfold argvGet
  cases hi : argv[i]? with
  | none => exact .stuck
  | some v => exact .known (hvs v (List.mem_of_getElem? hi))

theorem definePredicate_tidy {test : Val → ML Bool} (ht : ∀ v, Reads (test v)) :
    Tidies c 0 vs (definePredicate test argv) fun v => [v] :=
  .seq (.reads argvGet_reads) fun _ => .seq (.reads (ht _)) fun _ => .plain plain_mlMakeBool

/-- `prim_car` and `prim_cdr`. -/
theorem pairField_tidy {field : Val → ML Val} {message : Bytes} (hf : ∀ {ws : List Val} {v : Val},
    Tidies c 0 ws (field v) fun a => [a]) :
    Tidies c 0 vs (do
      let v ← argvGet argv 0
      if ← mlIsPair v then field v else raise 0 0 message .errType) fun v => [v] := by
  apply (Tidies.reads argvGet_reads).seq
  intro v
  apply (Tidies.reads isObjType_reads).seq
  intro _
  exact .ite hf .raise

theorem printAndFlush_tidy {writeStyle : Bool} : Tidies c 0 vs (printAndFlush c writeStyle argv) fun v => [v] := by
  refine .seq (.reads argvGet_reads) fun _ => .seq (mlPrint_tidy fun _ _ => stateOutputSink_tidy) fun _ => ?_
  exact .seq stateOutputFlush_tidy fun _ => .plain plain_imm

theorem primListLoop_tidy (hvs : ∀ v ∈ argv, v.Known vs) (sp n : Nat) (head : Val) (hhead : head.Known vs) :
    Tidies c 0 vs (primListLoop c argv sp n head) fun v => [v] := by
  induction n generalizing vs head with
  | zero => exact .known hhead
  | succ n ih =>
    apply (argvGet_tidy hvs).bind
    intro elem
    apply (Tidies.mlGcAllocPair .top hhead.tail).onErr_restore.bind
    intro cell
    apply (Tidies.modify fun s hs => hs.setSlot .top).seq
    intro _
    exact ih (fun v hv => (hvs v hv).tail.tail) cell .top

theorem primList_tidy (hvs : ∀ v ∈ argv, v.Known vs) : Tidies c 0 vs (primList c argv) fun v => [v] := by
  apply Tidies.savepoint
  intro sp
  apply (Tidies.mlGcProtect plain_imm.known).seq
  intro _
  apply (primListLoop_tidy hvs sp _ mvNil plain_imm.known).bind
  intro head
  apply (Tidies.modify fun s hs => hs.restore sp).seq
  intro _
  exact .pure (by simp [Val.Known])

theorem primLength_tidy : Tidies c 0 vs (primLength argv) fun v => [v] := by
  refine .seq (.reads argvGet_reads) fun _ => .seq (.reads .gets) fun _ => .seq (.reads (walkList_reads _)) fun r => ?_
  refine .ite .raise ?_
  split
  · exact .raise
  · rename_i h
    have hn : fitsFixnum r.1 = true := by
      simp only [mFixMax] at h
      exact fits_iff.2 (by omega)
    have hnone : ∀ v ∈ ([] : List Val), v.Known vs := by simp
    exact .computes hnone fun s _ => makeFix_fits counts_tidy hn

theorem primError_tidy : Tidies c 0 vs (primError argv) fun v => [v] := by
  unfold primError
  split
  · exact .raise
  · refine .seq (.reads isObjType_reads) fun _ => .ite ?_ ?_
    · exact .seq (.reads stringBytes_reads) fun _ => .raise
    · exact .ite (.seq (.reads .gets) fun _ => .raise) .raise

theorem callPrim_tidy {fn : PrimFn} (hvs : ∀ v ∈ argv, v.Known vs) :
    Tidies c 0 vs (callPrim c fn argv) fun v => [v] := by
  cases fn with
  | add => exact .computes hvs fun s h => makeFix_result counts_tidy (foldFix_wp h (by decide))
  | sub => exact .computes hvs fun s h => primSub_wp counts_tidy h False.elim
  | mul => exact .computes hvs fun s h => makeFix_result counts_tidy (foldFix_wp h (by decide))
  | div => exact .computes hvs fun s h => primDiv_wp counts_tidy h False.elim
  | quotient => exact .computes hvs fun s h => primQuotient_wp counts_tidy h False.elim
  | remainder => exact .computes hvs fun s h => primRemainder_wp counts_tidy h False.elim
  | modulo => exact .computes hvs fun s h => primModulo_wp counts_tidy h False.elim
  | numEq => exact .computes hvs fun s h => cmpChain_wp h False.elim
  | numLt => exact .computes hvs fun s h => cmpChain_wp h False.elim
  | numGt => exact .computes hvs fun s h => cmpChain_wp h False.elim
  | numLe => exact .computes hvs fun s h => cmpChain_wp h False.elim
  | numGe => exact .computes hvs fun s h => cmpChain_wp h False.elim
  | cons =>
    refine .bind (argvGet_tidy hvs) fun a => .bind (argvGet_tidy fun v hv => (hvs v hv).tail) fun d => ?_
    exact .mlGcAllocPair (Val.Known.top.tail) .top
  | car => exact pairField_tidy Tidies.car
  | cdr => exact pairField_tidy Tidies.cdr
  | list => exact primList_tidy hvs
  | length => exact primLength_tidy
  | nullP => exact definePredicate_tidy fun _ => .pure
  | pairP => exact definePredicate_tidy fun _ => isObjType_reads
  | numberP => exact definePredicate_tidy fun _ => .pure
  | symbolP => exact definePredicate_tidy fun _ => .pure
  | stringP => exact definePredicate_tidy fun _ => isObjType_reads
  | procedureP => exact definePredicate_tidy fun _ => mlIsProcedure_reads
  | booleanP => exact definePredicate_tidy fun _ => .pure
  | eqP => exact .seq (.reads argvGet_reads) fun _ => .seq (.reads argvGet_reads) fun _ => .plain plain_mlMakeBool
  | eqvP =>
    refine .seq (.reads argvGet_reads) fun _ => .seq (.reads argvGet_reads) fun _ => ?_
    exact .seq (.reads mlValueEqv_reads) fun _ => .plain plain_mlMakeBool
  | equalP =>
    refine .seq (.reads argvGet_reads) fun _ => .seq (.reads argvGet_reads) fun _ => ?_
    exact .seq (.seq (.reads .gets) fun _ => valueEqual_tidy _ _ _) fun _ => .plain plain_mlMakeBool
  | not => exact definePredicate_tidy fun _ => .pure
  | display => exact printAndFlush_tidy
  | write => exact printAndFlush_tidy
  | newline => exact .seq stateOutputSink_tidy fun _ => .seq stateOutputFlush_tidy fun _ => .plain plain_imm
  | error => exact primError_tidy

end Primitives
end Microlisp
