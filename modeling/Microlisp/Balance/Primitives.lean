import Microlisp.Balance.Inside
import Microlisp.Primitives
/-!
# Tables, printer and primitives leave the bookkeeping alone
-/
namespace Microlisp

open Prog

/-! ## What only reads -/

section Reads
variable {v : Val} {n : Nat}

theorem car_reads : Reads (car v) := fun _ => wp_mono (car_wp False.elim) (fun _ _ h => h.1) (fun _ _ h => h)

theorem cdr_reads : Reads (cdr v) := fun _ => wp_mono (cdr_wp False.elim) (fun _ _ h => h.1) (fun _ _ h => h)

theorem stringBytes_reads : Reads (stringBytes v) :=
  fun _ => wp_mono (stringBytes_wp False.elim) (fun _ _ h => h.1) (fun _ _ h => h)

theorem closureFields_reads : Reads (closureFields v) :=
  fun _ => wp_mono (closureFields_wp False.elim) (fun _ _ h => h.1) (fun _ _ h => h)

theorem primFields_reads : Reads (primFields v) :=
  fun _ => wp_mono (primFields_wp False.elim) (fun _ _ h => h.1) (fun _ _ h => h)

theorem envFields_reads : Reads (envFields v) :=
  fun _ => wp_mono (envFields_wp False.elim) (fun _ _ h => h.1) (fun _ _ h => h)

theorem isObjType_reads {p : Obj → Bool} : Reads (isObjType p v) :=
  fun _ => wp_mono (isObjType_wp False.elim) (fun _ _ h => h.1) (fun _ _ h => h)

theorem mlIsProcedure_reads : Reads (mlIsProcedure v) :=
  .bind isObjType_reads fun _ => .ite .pure isObjType_reads

theorem argvGet_reads {argv : List Val} : Reads (argvGet argv n) := by
  unfold argvGet
  cases argv[n]? with
  | some v => exact .pure
  | none => exact .stuck

theorem gcProtectGet_reads : Reads (gcProtectGet n) := by
  refine .bind .gets fun o => ?_
  cases o with
  | some v => exact .pure
  | none => exact .stuck

theorem mlValueEqv_reads {w : Val} : Reads (mlValueEqv v w) := by
  refine .ite .pure (.bind isObjType_reads fun _ => .ite (.bind isObjType_reads fun _ => .ite ?_ .pure) .pure)
  exact .bind stringBytes_reads fun _ => .bind stringBytes_reads fun _ => .pure

theorem walkList_reads (bound : Nat) : Reads (walkList bound v n) := by
  induction bound generalizing v n with
  | zero => exact .timeout
  | succ bound ih => exact .bind isObjType_reads fun _ => .ite (.bind cdr_reads fun _ => ih) .pure

end Reads

section Keeping
variable {c : Config} {S : Status → Prop} {s0 : State} {xs : List Val} {α : Type} {v name value env : Val}
variable (hS : ∀ e, e ≠ .errEvalDepth → S e)
include hS

/-! ## Symbols and frames -/

theorem mlSymIntern_keeps {name : Bytes} : Keeps c S s0 xs (mlSymIntern c name) := by
  intro t h
  apply wp_mono mlSymIntern_adds
  · rintro v u ⟨-, hentries, hu⟩
    rw [hu]
    exact { h with entries := h.entries.trans hentries }
  · rintro e u ⟨rfl, hu⟩
    rw [hu]
    exact ⟨hS _ (by decide), { h.toInside with }⟩

omit hS in
theorem assign_names {bs bs' : List (Val × Val)} (h : assign name value bs = some bs') :
    bs'.map Prod.fst = bs.map Prod.fst := by
  induction bs generalizing bs' with
  | nil => cases h
  | cons b bs ih =>
    simp only [assign] at h
    split at h
    · rename_i hb
      cases h
      simp [hb]
    · obtain ⟨bs₁, hbs, rfl⟩ := Option.map_eq_some_iff.1 h
      simp [ih hbs]

omit hS in
/-- Writing back a frame with the same names, or more. -/
theorem writeObj_frame {f : Frame} {bs : List (Val × Val)} {k : Nat} {E : Status → State → Prop}
    (hbs : f.bindings.map Prod.fst <+: bs.map Prod.fst) :
    Triple (s0.watch c) (fun t => s0.At c xs t ∧ t.heap.Has env f.obj) (writeObj env (.env f.parent bs k))
      (fun _ => s0.At c xs) E := by
  rintro t ⟨h, a, rfl, ha⟩
  have hx : ∀ b, Val.obj a = .obj b → s0.heap.Ext c (t.heap.set b (.env f.parent bs k)) := by
    rintro _ ⟨⟩
    exact h.heap.set fun _ => ⟨f.obj, ha, bs, k, rfl, hbs⟩
  refine wp_mono (writeObj_wp False.elim fun b hb _ he => by cases he; exact hx b hb) ?_ (fun _ _ h => h)
  rintro _ u ⟨_, ⟨⟩, rfl⟩
  exact { h with heap := hx a rfl }

theorem envGrow_at {f : Frame} {k : Nat} :
    Triple (s0.watch c) (fun t => s0.At c xs t ∧ t.heap.Has env f.obj) (envGrow c k)
      (fun _ t => s0.At c xs t ∧ t.heap.Has env f.obj) (Fails c S s0 xs) := by
  have halloc : ∀ size, Triple (s0.watch c) (fun t => s0.At c xs t ∧ t.heap.Has env f.obj) (rawAllocOrFail c size)
      (fun _ t => s0.At c xs t ∧ t.heap.Has env f.obj) (Fails c S s0 xs) := by
    rintro size t ⟨h, hf⟩
    refine wp_mono rawAllocOrFail_wp (fun _ u hu => ?_) ?_
    · rw [hu]
      exact ⟨{ h with }, hf⟩
    · rintro e u ⟨rfl, -, hu⟩
      exact ⟨hS _ (by decide), h.toInside.of_eq (by rw [hu])⟩
  exact .seq (halloc _) fun _ => .seq (halloc _) fun _ => .pure fun _ h => h

omit hS in
theorem envFields_at {E : Status → State → Prop} :
    Triple (s0.watch c) (s0.At c xs) (envFields env) (fun f t => s0.At c xs t ∧ t.heap.Has env f.obj) E := by
  intro t h
  refine wp_mono (envFields_wp False.elim) ?_ (fun _ _ h => h)
  rintro f u ⟨rfl, hf⟩
  exact ⟨h, hf⟩

theorem mlEnvDefine_keeps : Keeps c S s0 xs (mlEnvDefine c env name value) := by
  refine .bind (.reads isObjType_reads) fun ok => .ite (.fail (hS _ (by decide))) ?_
  refine Triple.bind envFields_at fun f => ?_
  split
  · rename_i bs hbs
    exact writeObj_frame (assign_names hbs ▸ List.prefix_refl _)
  · have hwrite : ∀ k, Triple (s0.watch c) (fun t => s0.At c xs t ∧ t.heap.Has env f.obj)
        (writeObj env (.env f.parent (f.bindings ++ [(name, value)]) k)) (fun _ => s0.At c xs) (Fails c S s0 xs) :=
      fun k => writeObj_frame (by rw [List.map_append]; exact List.prefix_append _ _)
    exact Triple.ite (fun _ => .bind (envGrow_at hS) hwrite) (fun _ => .seq (.pure fun _ h => h) hwrite)

theorem mlEnvSet_keeps : Keeps c S s0 xs (mlEnvSet env name value) := by
  have hloop : ∀ n cur, Keeps c S s0 xs (envSetLoop name value n cur) := by
    intro n
    induction n with
    | zero => exact fun _ => .timeout
    | succ n ih =>
      intro cur
      refine .bind (.reads isObjType_reads) fun _ => .ite ?_ (.fail (hS _ (by decide)))
      refine Triple.bind envFields_at fun f => ?_
      split
      · rename_i bs hbs
        exact writeObj_frame (assign_names hbs ▸ List.prefix_refl _)
      · exact (ih f.parent).conseq (fun _ h => h.1) (fun _ _ h => h) (fun _ _ h => h)
  exact .ite (.bind (.reads .gets) fun bound => hloop bound env) (.fail (hS _ (by decide)))

theorem mlEnvLookup_keeps : Keeps c S s0 xs (mlEnvLookup env name) := by
  have hloop : ∀ n cur, Keeps c S s0 xs (envLookupLoop name n cur) := by
    intro n
    induction n with
    | zero => exact fun _ => .timeout
    | succ n ih =>
      intro cur
      refine .bind (.reads isObjType_reads) fun _ => .ite (.bind (.reads envFields_reads) fun f => ?_)
        (.fail (hS _ (by decide)))
      split
      · exact .pure
      · exact ih f.parent
  exact .ite (.bind (.reads .gets) fun bound => hloop bound env) (.fail (hS _ (by decide)))

/-! ## Equality -/

theorem valueEqual_keeps (n : Nat) (a b : Val) : Keeps c S s0 xs (valueEqual c n a b) := by
  induction n generalizing s0 a b with
  | zero => exact .timeout
  | succ n ih =>
    refine .bind (.reads .gets) fun depth => .ite (.raise (hS _ (by decide))) ?_
    refine .bind (.reads mlValueEqv_reads) fun eqv => .ite .pure ?_
    refine .bind (.reads isObjType_reads) fun _ => .ite .pure (.bind (.reads isObjType_reads) fun _ => .ite .pure ?_)
    refine .bind (.reads car_reads) fun carA => .bind (.reads car_reads) fun carB => ?_
    -- inside, the depth is one more than at entry
    let s1 : State := { s0 with equalDepth := s0.equalDepth + 1 }
    have henter : Triple (s0.watch c) (s0.At c xs)
        (modify (fun s => { s with equalDepth := s.equalDepth + 1 }) : ML Unit) (fun _ => s1.At c xs)
          (Fails c S s0 xs) :=
      .modify fun t h => { h with equalDepth := congrArg (· + 1) h.equalDepth }
    have hleave : ∀ t, s1.At c xs t → s0.At c xs (leaveEqual t) := fun t h =>
      { h with equalDepth := by simp [leaveEqual, h.equalDepth, s1] }
    have hleave' : ∀ t, s1.Inside c xs t → s0.Inside c xs (leaveEqual t) := fun t h =>
      { h with equalDepth := by simp [leaveEqual, h.equalDepth, s1] }
    have hrec : ∀ a b, Triple (s0.watch c) (s1.At c xs) (valueEqual c n a b) (fun _ => s1.At c xs)
        (fun e t => Fails c S s0 xs e (leaveEqual t)) := fun a b =>
      (@ih s1 a b).conseq (fun _ h => h) (fun _ _ h => h) (fun _ t h => ⟨h.1, hleave' t h.2⟩)
    refine Triple.bind henter fun _ => Triple.bind (.onErr (hrec carA carB)) fun carEq =>
      Triple.ite (fun _ => ?_) (fun _ => ?_)
    · exact .bind (.modify hleave) fun _ => .pure fun _ h => h
    · refine .seq cdr_reads.triple fun cdrA => .seq cdr_reads.triple fun cdrB => .andThen ?_
      exact (hrec cdrA cdrB).conseq (fun _ h => h) (fun _ t h => hleave t h) (fun _ _ h => h)

theorem mlValueEqual_keeps {a b : Val} : Keeps c S s0 xs (mlValueEqual c a b) :=
  .bind (.reads .gets) fun _ => valueEqual_keeps hS _ a b

/-! ## Printer -/

section Printing
variable {β : Type} {out : Sink β}
variable (hout : ∀ s0 user bytes, Keeps c S s0 xs (out user bytes))
include hout

omit hS in
theorem emitTo_keeps {user : β} {bytes : Bytes} : Keeps c S s0 xs (emitTo out user bytes) :=
  .ite .pure (hout _ _ _)

omit hS in
theorem emitQuotedLoop_keeps (bs run : Bytes) (user : β) : Keeps c S s0 xs (emitQuotedLoop out bs run user) := by
  induction bs generalizing run user with
  | nil => exact emitTo_keeps hout
  | cons b bs ih =>
    refine .ite (.bind (emitTo_keeps hout) fun _ => .bind (emitTo_keeps hout) fun _ => ih _ _) (ih _ _)

omit hS in
theorem printSpine_keeps {printValue : Val → β → ML β} (hp : ∀ v user, Keeps c S s0 xs (printValue v user)) (n : Nat)
    (rest : Val) (user : β) : Keeps c S s0 xs (printSpine out printValue n rest user) := by
  induction n generalizing rest user with
  | zero => exact .timeout
  | succ n ih =>
    refine .bind (.reads isObjType_reads) fun _ => .ite ?_ (.ite (.bind (emitTo_keeps hout) fun _ => hp _ _) .pure)
    refine .bind (emitTo_keeps hout) fun _ => .bind (.reads car_reads) fun elem => .bind (hp _ _) fun _ => ?_
    exact .bind (.reads cdr_reads) fun _ => ih _ _

omit hS in
theorem printObject_keeps {printValue : Val → β → ML β} {writeStyle : Bool} {user : β}
    (hp : ∀ v user, Keeps c S s0 xs (printValue v user)) :
    Keeps c S s0 xs (printObject out writeStyle printValue v user) := by
  refine .bind (.reads isObjType_reads) fun _ => .ite (.bind (.reads stringBytes_reads) fun _ => .ite ?_ ?_) ?_
  · exact .bind (emitTo_keeps hout) fun _ => .bind (emitQuotedLoop_keeps hout _ _ _) fun _ => emitTo_keeps hout
  · exact emitTo_keeps hout
  refine .bind (.reads isObjType_reads) fun _ => .ite (.bind (emitTo_keeps hout) fun _ => .bind ?_ fun _ => ?_) ?_
  · refine .bind (.reads car_reads) fun _ => .bind (hp _ _) fun _ => .bind (.reads cdr_reads) fun _ => ?_
    exact .bind (.reads .gets) fun _ => printSpine_keeps hout hp _ _ _
  · exact emitTo_keeps hout
  refine .bind (.reads isObjType_reads) fun _ => .ite (.bind (.reads primFields_reads) fun _ => emitTo_keeps hout) ?_
  refine .bind (.reads isObjType_reads) fun _ => .ite (emitTo_keeps hout) ?_
  exact .bind (.reads isObjType_reads) fun _ => .ite (emitTo_keeps hout) (emitTo_keeps hout)

omit hS in
theorem printValueInner_keeps {printValue : Val → β → ML β} {writeStyle : Bool} {user : β}
    (hp : ∀ v user, Keeps c S s0 xs (printValue v user)) :
    Keeps c S s0 xs (printValueInner out writeStyle printValue v user) := by
  cases v with
  | fix p => exact emitTo_keeps hout
  | imm i => cases i <;> exact emitTo_keeps hout
  | sym i => exact .bind (.reads .gets) fun _ => emitTo_keeps hout
  | obj a => exact printObject_keeps hout hp
  | reserved w => exact printObject_keeps hout hp

theorem printValue_keeps {writeStyle : Bool} (n : Nat) (v : Val) (user : β) :
    Keeps c S s0 xs (printValue out c writeStyle n v user) := by
  induction n generalizing s0 v user with
  | zero => exact .timeout
  | succ n ih =>
    refine .bind (.reads .gets) fun depth => .ite (.raise (hS _ (by decide))) ?_
    -- inside, the depth is one more than at entry
    let s1 : State := { s0 with printDepth := s0.printDepth + 1 }
    have hleave : ∀ t, s1.Inside c xs t → s0.Inside c xs (leavePrint t) := fun t h =>
      { h with printDepth := by simp [leavePrint, h.printDepth, s1] }
    refine Triple.bind (Q := fun _ => s1.At c xs) (.modify fun t h => ?_) fun _ => .andThen ?_
    · exact { h with printDepth := congrArg (· + 1) h.printDepth }
    · have hin : Keeps c S s1 xs (printValueInner out writeStyle (printValue out c writeStyle n) v user) :=
        printValueInner_keeps hout fun v user => ih v user
      refine Triple.conseq hin (fun _ h => h) ?_ ?_
      · exact fun _ t h => { hleave t h.toInside with lastError := h.lastError }
      · exact fun _ t h => ⟨h.1, hleave t h.2⟩

theorem mlPrint_keeps {writeStyle : Bool} {user : β} : Keeps c S s0 xs (mlPrint out c v writeStyle user) :=
  .bind (.reads .gets) fun _ => printValue_keeps hS hout _ v user

end Printing

theorem printBufSink_keeps {pb : PrintBuf} {bytes : Bytes} : Keeps c S s0 xs (printBufSink c pb bytes) := by
  refine .ite (.fail (hS _ (by decide))) (.ite ?_ .pure)
  split
  · exact .fail (hS _ (by decide))
  · exact .bind (rawAllocOrFail_keeps hS) fun _ => .pure

theorem mlPrintToAlloc_keeps {writeStyle : Bool} : Keeps c S s0 xs (mlPrintToAlloc c v writeStyle) :=
  .bind (mlPrint_keeps hS fun _ _ _ => printBufSink_keeps hS) fun _ =>
    .ite (.bind (rawAllocOrFail_keeps hS) fun _ => .pure) .pure

theorem stateOutputSink_keeps {user : Unit} {bytes : Bytes} : Keeps c S s0 xs (stateOutputSink c user bytes) :=
  .bind (.reads .gets) fun _ => .bind (.modify fun _ h => { h with }) fun _ => .ite (.fail (hS _ (by decide))) .pure

theorem stateOutputFlush_keeps : Keeps c S s0 xs (stateOutputFlush c) :=
  .bind (.reads .gets) fun _ => .bind (.modify fun _ h => { h with }) fun _ => .ite .pure (.fail (hS _ (by decide)))

/-! ## Primitives -/

section Primitives
variable {argv : List Val}

omit hS in
theorem makeFix_keeps {x : Int} : Keeps c S s0 xs (makeFix x) := fun _ h => makeFix_wp nofun h

omit hS in
theorem int64Op_keeps {x : Int} : Keeps c S s0 xs (int64Op x) := fun _ h => int64Op_wp nofun False.elim h

omit hS in
theorem int64Div_keeps {a b : Int} : Keeps c S s0 xs (int64Div a b) := .ite .stuck int64Op_keeps

omit hS in
theorem int64Rem_keeps {a b : Int} : Keeps c S s0 xs (int64Rem a b) := .bind int64Div_keeps fun _ => .pure

theorem expectFix_keeps {what : String} : Keeps c S s0 xs (expectFix v what) := by
  unfold expectFix
  split
  · exact .pure
  · exact .raise (hS _ (by decide))

theorem foldFix_keeps {op : Int → Int → Int} {what : String} {acc : Int} :
    Keeps c S s0 xs (foldFix op what argv acc) := by
  induction argv generalizing acc with
  | nil => exact .pure
  | cons a argv ih =>
    refine .bind (expectFix_keeps hS) fun _ => ?_
    split
    · exact .ite ih (.raise (hS _ (by decide)))
    · exact .raise (hS _ (by decide))

theorem primSub_keeps : Keeps c S s0 xs (primSub argv) := by
  refine .ite (.bind (.reads argvGet_reads) fun _ => .bind (expectFix_keeps hS) fun _ => ?_) ?_
  · exact .bind int64Op_keeps fun _ => .ite makeFix_keeps (.raise (hS _ (by decide)))
  · refine .bind (.reads argvGet_reads) fun _ => .bind (expectFix_keeps hS) fun _ => ?_
    exact .bind (foldFix_keeps hS) fun _ => makeFix_keeps

theorem primDiv_keeps : Keeps c S s0 xs (primDiv argv) := by
  have hloop : ∀ (argv : List Val) acc, Keeps c S s0 xs (divLoop argv acc) := by
    intro argv
    induction argv with
    | nil => exact fun _ => .pure
    | cons a argv ih =>
      intro acc
      refine .bind (expectFix_keeps hS) fun _ => .ite (.raise (hS _ (by decide))) ?_
      exact .bind int64Div_keeps fun _ => .ite (ih _) (.raise (hS _ (by decide)))
  refine .ite (.bind (.reads argvGet_reads) fun _ => .bind (expectFix_keeps hS) fun _ => ?_) ?_
  · exact .ite (.raise (hS _ (by decide))) makeFix_keeps
  · refine .bind (.reads argvGet_reads) fun _ => .bind (expectFix_keeps hS) fun _ => ?_
    exact .bind (hloop _ _) fun _ => makeFix_keeps

/-- The start of `quotient`, `remainder` and `modulo`. -/
theorem divisor_keeps {what : String} {f : Int → Int → ML Val}
    (hf : ∀ a b, Keeps c S s0 xs (f a b)) :
    Keeps c S s0 xs (do
      let a ← expectFix (← argvGet argv 0) what
      let b ← expectFix (← argvGet argv 1) what
      f a b) := by
  refine .bind (.reads argvGet_reads) fun _ => .bind (expectFix_keeps hS) fun _ => ?_
  exact .bind (.reads argvGet_reads) fun _ => .bind (expectFix_keeps hS) fun _ => hf _ _

theorem primQuotient_keeps : Keeps c S s0 xs (primQuotient argv) :=
  divisor_keeps hS fun _ _ => .ite (.raise (hS _ (by decide)))
    (.bind int64Div_keeps fun _ => .ite makeFix_keeps (.raise (hS _ (by decide))))

theorem primRemainder_keeps : Keeps c S s0 xs (primRemainder argv) :=
  divisor_keeps hS fun _ _ => .ite (.raise (hS _ (by decide)))
    (.ite makeFix_keeps (.bind int64Rem_keeps fun _ => makeFix_keeps))

theorem primModulo_keeps : Keeps c S s0 xs (primModulo argv) :=
  divisor_keeps hS fun _ _ => .ite (.raise (hS _ (by decide)))
    (.bind int64Rem_keeps fun _ => .ite (.bind int64Op_keeps fun _ => makeFix_keeps)
      (.bind .pure fun _ => makeFix_keeps))

theorem cmpChain_keeps {op : CmpOp} {name : String} : Keeps c S s0 xs (cmpChain op name argv) := by
  have hloop : ∀ (argv : List Val) prev, Keeps c S s0 xs (cmpLoop op name argv prev) := by
    intro argv
    induction argv with
    | nil => exact fun _ => .pure
    | cons a argv ih => exact fun _ => .bind (expectFix_keeps hS) fun _ => .ite (ih _) .pure
  exact .bind (.reads argvGet_reads) fun _ => .bind (expectFix_keeps hS) fun _ => hloop _ _

/-- `prim_car` and `prim_cdr`. -/
theorem pairField_keeps {field : Val → ML Val} {message : Bytes} (hf : ∀ v, Reads (field v)) :
    Keeps c S s0 xs (do
      let v ← argvGet argv 0
      if ← mlIsPair v then field v else raise 0 0 message .errType) :=
  .bind (.reads argvGet_reads) fun _ => .bind (.reads isObjType_reads) fun _ =>
    .ite (.reads (hf _)) (.raise (hS _ (by decide)))

omit hS in
/-- Overwriting a slot above `xs` of the protect stack. -/
theorem State.At.setSlot {l : List Val} {x y : Val} {t : State} (h : s0.At c (l ++ [x]) t) :
    s0.At c (l ++ [y]) (gcProtectSet (s0.gcProtect.length + l.length) y t) := by
  have hp : t.gcProtect.set (s0.gcProtect.length + l.length) y = s0.gcProtect ++ (l ++ [y]) := by
    rw [h.protect, ← List.append_assoc, ← List.length_append, List.set_append_right _ _ (Nat.le_refl _)]
    simp
  exact { h with protect := hp }

omit hS in
/-- The loops that build a list from its end, with the list so far in a slot. -/
theorem slotLoop_keeps {loop : Nat → Val → ML Val} {f : Nat → Val → ML Val}
    (hzero : ∀ head, loop 0 head = pure head)
    (hsucc : ∀ i head, loop (i + 1) head = do
      let cell ← f i head
      modify (gcProtectSet (s0.gcProtect.length + xs.length) cell)
      loop i cell)
    (hstep : ∀ i head x, Triple (s0.watch c) (s0.At c (xs ++ [x])) (f i head) (fun _ => s0.At c (xs ++ [x]))
      (Fails c S s0 xs)) (n : Nat) (head x : Val) :
    Triple (s0.watch c) (s0.At c (xs ++ [x])) (loop n head) (fun _ t => ∃ y, s0.At c (xs ++ [y]) t)
      (Fails c S s0 xs) := by
  induction n generalizing head x with
  | zero =>
    rw [hzero]
    exact .pure fun _ h => ⟨x, h⟩
  | succ n ih =>
    rw [hsucc]
    exact .bind (hstep n head x) fun cell => .bind (.modify fun _ h => h.setSlot) fun _ => ih cell cell

/-- A slot for the list so far, around such a loop. -/
theorem slot_keeps {loop : Nat → ML Val}
    (hloop : ∀ x, Triple (s0.watch c) (s0.At c (xs ++ [x])) (loop (s0.gcProtect.length + xs.length))
      (fun _ t => ∃ y, s0.At c (xs ++ [y]) t) (Fails c S s0 xs)) :
    Keeps c S s0 xs (do
      let sp ← mlGcSavepoint
      mlGcProtect c mvNil
      let head ← loop sp
      modify (mlGcRestore sp)
      pure head) := by
  refine savepoint_bind (.bind (mlGcProtect_at hS) fun _ => .bind (hloop mvNil) fun head => ?_)
  refine .bind (Q := fun _ => s0.At c xs) (.modify fun t h => ?_) fun _ => .pure fun _ h => h
  obtain ⟨y, h⟩ := h
  exact h.restore

theorem primList_keeps : Keeps c S s0 xs (primList c argv) := by
  refine slot_keeps hS fun x => slotLoop_keeps
    (f := fun i head => do
      let elem ← argvGet argv i
      (mlGcAllocPair c elem head).onErr (mlGcRestore (s0.gcProtect.length + xs.length)))
    (fun _ => rfl) (fun i head => ?_) (fun i head x => ?_) _ mvNil x
  · rw [bind_assoc]
    rfl
  · exact .seq argvGet_reads.triple fun elem => onErr_restore (gcAlloc_keeps hS)

theorem primLength_keeps : Keeps c S s0 xs (primLength argv) :=
  .bind (.reads argvGet_reads) fun _ => .bind (.reads .gets) fun _ => .bind (.reads (walkList_reads _)) fun _ =>
    .ite (.raise (hS _ (by decide))) (.ite (.raise (hS _ (by decide))) makeFix_keeps)

omit hS in
theorem definePredicate_keeps {test : Val → ML Bool} (ht : ∀ v, Reads (test v)) :
    Keeps c S s0 xs (definePredicate test argv) :=
  .bind (.reads argvGet_reads) fun _ => .bind (.reads (ht _)) fun _ => .pure

theorem printAndFlush_keeps {writeStyle : Bool} : Keeps c S s0 xs (printAndFlush c writeStyle argv) :=
  .bind (.reads argvGet_reads) fun _ =>
    .bind (mlPrint_keeps hS fun _ _ _ => stateOutputSink_keeps hS) fun _ =>
      .bind (stateOutputFlush_keeps hS) fun _ => .pure

theorem primError_keeps : Keeps c S s0 xs (primError argv) := by
  unfold primError
  split
  · exact .raise (hS _ (by decide))
  · refine .bind (.reads isObjType_reads) fun _ => .ite ?_ (.ite ?_ (.raise (hS _ (by decide))))
    · exact .bind (.reads stringBytes_reads) fun _ => .raise (hS _ (by decide))
    · exact .bind (.reads .gets) fun _ => .raise (hS _ (by decide))

theorem callPrim_keeps {fn : PrimFn} : Keeps c S s0 xs (callPrim c fn argv) := by
  cases fn with
  | add => exact .bind (foldFix_keeps hS) fun _ => makeFix_keeps
  | sub => exact primSub_keeps hS
  | mul => exact .bind (foldFix_keeps hS) fun _ => makeFix_keeps
  | div => exact primDiv_keeps hS
  | quotient => exact primQuotient_keeps hS
  | remainder => exact primRemainder_keeps hS
  | modulo => exact primModulo_keeps hS
  | numEq => exact cmpChain_keeps hS
  | numLt => exact cmpChain_keeps hS
  | numGt => exact cmpChain_keeps hS
  | numLe => exact cmpChain_keeps hS
  | numGe => exact cmpChain_keeps hS
  | cons => exact .bind (.reads argvGet_reads) fun _ => .bind (.reads argvGet_reads) fun _ => gcAlloc_keeps hS
  | car => exact pairField_keeps hS fun _ => car_reads
  | cdr => exact pairField_keeps hS fun _ => cdr_reads
  | list => exact primList_keeps hS
  | length => exact primLength_keeps hS
  | nullP => exact definePredicate_keeps fun _ => .pure
  | pairP => exact definePredicate_keeps fun _ => isObjType_reads
  | numberP => exact definePredicate_keeps fun _ => .pure
  | symbolP => exact definePredicate_keeps fun _ => .pure
  | stringP => exact definePredicate_keeps fun _ => isObjType_reads
  | procedureP => exact definePredicate_keeps fun _ => mlIsProcedure_reads
  | booleanP => exact definePredicate_keeps fun _ => .pure
  | eqP => exact .bind (.reads argvGet_reads) fun _ => .bind (.reads argvGet_reads) fun _ => .pure
  | eqvP =>
    refine .bind (.reads argvGet_reads) fun _ => .bind (.reads argvGet_reads) fun _ => ?_
    exact .bind (.reads mlValueEqv_reads) fun _ => .pure
  | equalP =>
    refine .bind (.reads argvGet_reads) fun _ => .bind (.reads argvGet_reads) fun _ => ?_
    exact .bind (mlValueEqual_keeps hS) fun _ => .pure
  | not => exact definePredicate_keeps fun _ => .pure
  | display => exact printAndFlush_keeps hS
  | write => exact printAndFlush_keeps hS
  | newline => exact .bind (stateOutputSink_keeps hS) fun _ => .bind (stateOutputFlush_keeps hS) fun _ => .pure
  | error => exact primError_keeps hS

end Primitives
end Keeping
end Microlisp
