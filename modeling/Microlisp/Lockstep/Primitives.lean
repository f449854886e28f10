import Microlisp.Primitives
/-!
# Runs in lockstep

Two runs of the same code from related states end alike, as soon as the operations
that touch the memory do. What relates the states is left open: a heap from which a
collector has taken objects and one that kept them all, or a protect stack and none.
-/
namespace Microlisp

open Prog

/-- Two settings of one limit: the same, or a smaller one on the left, where the runs that
it stops, by the status `st`, are not compared. -/
def Limits (bl : Halt Status → Prop) (st : Status) (m m' : Nat) : Prop :=
  m = m' ∨ (m ≤ m' ∧ bl (.err st) ∧ bl .timeout)

/-- The check of a depth against such limits. -/
theorem limit_sim {bl br : Halt Status → Prop} {R : State → State → Prop} {α : Type} {st : Status}
    {m m' depth line column : Nat}
    {message message' : Bytes} {p p' : ML α}
    (hraise : Sim bl br R (raise line column message' st : ML α) (raise line column message' st))
    (hl : Limits bl st m m')
    (hmsg : m = m' → message = message') (hp : Sim bl br R p p') :
    Sim bl br R (if depth ≥ m then raise line column message st else p)
      (if depth ≥ m' then raise line column message' st else p') := by
  rcases hl with hm | ⟨hle, hst, -⟩
  · rw [hmsg hm, hm]
    exact .ite (fun _ => hraise) fun _ => hp
  · by_cases hd : depth ≥ m
    · rw [if_pos hd]
      intro s t _
      exact simAt_of_left rfl hst
    · rw [if_neg hd, if_neg (by omega)]
      exact hp

/-- What two runs in lockstep need: `R` relates their states, `P` the heights of their
protect stacks at corresponding savepoints. -/
structure Lockstep (bl br : Halt Status → Prop) (c c' : Config) (P : Nat → Nat → Prop) (R : State → State → Prop) :
    Prop where
  fwrite : c.fwrite = c'.fwrite
  fflush : c.fflush = c'.fflush
  maxPrintDepth : Limits bl .errPrintDepth c.maxPrintDepth c'.maxPrintDepth
  maxEqualDepth : Limits bl .errEqualDepth c.maxEqualDepth c'.maxEqualDepth
  readObj : ∀ a, Sim bl br R (readObj a) (readObj a)
  writeObj : ∀ v o, Sim bl br R (writeObj v o) (writeObj v o)
  gcAlloc : ∀ size o, Sim bl br R (gcAlloc c size o) (gcAlloc c' size o)
  rawAlloc : ∀ size, Sim bl br R (rawAllocOrFail c size) (rawAllocOrFail c' size)
  protect : ∀ v, Sim bl br R (mlGcProtect c v) (mlGcProtect c' v)
  height : ∀ s t, R s t → P s.gcProtect.length t.gcProtect.length
  restore : ∀ n n' s t, P n n' → R s t → R (mlGcRestore n s) (mlGcRestore n' t)
  unprotect : ∀ n s t, R s t → R (mlGcUnprotect n s) (mlGcUnprotect n t)
  setSlot : ∀ n n' v s t, P n n' → R s t → R (gcProtectSet n v s) (gcProtectSet n' v t)
  setError : ∀ line column message s t, R s t → R (mlSetError line column message s) (mlSetError line column message t)
  next : ∀ s t, R s t → s.heap.next = t.heap.next
  symtab : ∀ s t, R s t → s.symtab = t.symtab
  printDepth : ∀ s t, R s t → s.printDepth = t.printDepth
  setPrintDepth : ∀ n s t, R s t → R { s with printDepth := n } { t with printDepth := n }
  equalDepth : ∀ s t, R s t → s.equalDepth = t.equalDepth
  setEqualDepth : ∀ n s t, R s t → R { s with equalDepth := n } { t with equalDepth := n }
  writes : ∀ s t, R s t → s.writes = t.writes
  write : ∀ bytes s t, R s t → R { s with output := s.output ++ bytes, writes := s.writes + 1 }
    { t with output := t.output ++ bytes, writes := t.writes + 1 }
  flushes : ∀ s t, R s t → s.flushes = t.flushes
  flush : ∀ s t, R s t → R { s with flushes := s.flushes + 1 } { t with flushes := t.flushes + 1 }

section Lockstep
variable {bl br : Halt Status → Prop} {c c' : Config} {P : Nat → Nat → Prop} {R : State → State → Prop}
  {v w env name value : Val} {α : Type}
variable (h : Lockstep bl br c c' P R)
include h

/-! ## Objects -/

theorem asObj_lockstep : Sim bl br R (asObj v) (asObj v) := by
  cases v with
  | obj a => exact h.readObj a
  | _ => exact .stuck

theorem isObjType_lockstep {p : Obj → Bool} : Sim bl br R (isObjType p v) (isObjType p v) := by
  unfold isObjType
  split
  · exact .pure _
  · exact (h.readObj _).bind fun _ => .pure _
  · exact .pure _

/-- A field read behind a cast. -/
theorem field_lockstep {k : Obj → ML α} (hk : ∀ o, (∃ a, k o = pure a) ∨ k o = stuck) :
    Sim bl br R (asObj v >>= k) (asObj v >>= k) := by
  refine (asObj_lockstep h).bind fun o => ?_
  rcases hk o with ⟨a, ha⟩ | ha <;> rw [ha]
  · exact .pure _
  · exact .stuck

theorem car_lockstep : Sim bl br R (car v) (car v) :=
  field_lockstep h fun o => by cases o <;> first | exact .inl ⟨_, rfl⟩ | exact .inr rfl

theorem cdr_lockstep : Sim bl br R (cdr v) (cdr v) :=
  field_lockstep h fun o => by cases o <;> first | exact .inl ⟨_, rfl⟩ | exact .inr rfl

theorem stringBytes_lockstep : Sim bl br R (stringBytes v) (stringBytes v) :=
  field_lockstep h fun o => by cases o <;> first | exact .inl ⟨_, rfl⟩ | exact .inr rfl

theorem closureFields_lockstep : Sim bl br R (closureFields v) (closureFields v) :=
  field_lockstep h fun o => by cases o <;> first | exact .inl ⟨_, rfl⟩ | exact .inr rfl

theorem primFields_lockstep : Sim bl br R (primFields v) (primFields v) :=
  field_lockstep h fun o => by cases o <;> first | exact .inl ⟨_, rfl⟩ | exact .inr rfl

theorem envFields_lockstep : Sim bl br R (envFields v) (envFields v) :=
  field_lockstep h fun o => by cases o <;> first | exact .inl ⟨_, rfl⟩ | exact .inr rfl

theorem mlIsProcedure_lockstep : Sim bl br R (mlIsProcedure v) (mlIsProcedure v) :=
  (isObjType_lockstep h).bind fun _ => .ite (fun _ => .pure _) fun _ => isObjType_lockstep h

theorem raise_lockstep {line column : Nat} {message : Bytes} {e : Status} :
    Sim bl br R (raise line column message e : ML α) (raise line column message e) :=
  (Sim.modify fun s t => h.setError line column message s t).bind fun _ => .fail e

/-- The check of a depth against a limit. -/
theorem limit_lockstep {st : Status} {m m' depth line column : Nat} {message message' : Bytes} {p p' : ML α}
    (hl : Limits bl st m m') (hmsg : m = m' → message = message') (hp : Sim bl br R p p') :
    Sim bl br R (if depth ≥ m then raise line column message st else p)
      (if depth ≥ m' then raise line column message' st else p') := limit_sim (raise_lockstep h) hl hmsg hp

theorem walkBound_lockstep : Sim bl br R walkBound walkBound :=
  .gets fun s t hR => congrArg (· + 1) (h.next s t hR)

theorem mlSymName_lockstep : Sim bl br R (mlSymName v) (mlSymName v) :=
  .gets fun s t hR => by rw [h.symtab s t hR]

theorem savepoint_lockstep {β : Type} {f f' : Nat → ML β} (hf : ∀ n n', P n n' → Sim bl br R (f n) (f' n')) :
    Sim bl br R (mlGcSavepoint >>= f) (mlGcSavepoint >>= f') :=
  .gets_bind fun s t hR => hf _ _ (h.height s t hR) s t hR

theorem onErr_restore_lockstep {m m' : ML α} {n n' : Nat} (hn : P n n') (hm : Sim bl br R m m') :
    Sim bl br R (m.onErr (mlGcRestore n)) (m'.onErr (mlGcRestore n')) :=
  hm.onErr fun s t => h.restore n n' s t hn

theorem andThen_restore_lockstep {m m' : ML α} {n n' : Nat} (hn : P n n') (hm : Sim bl br R m m') :
    Sim bl br R (m.andThen (mlGcRestore n)) (m'.andThen (mlGcRestore n')) :=
  hm.andThen fun s t => h.restore n n' s t hn

/-! ## Frames -/

theorem mlEnvDefine_lockstep : Sim bl br R (mlEnvDefine c env name value) (mlEnvDefine c' env name value) := by
  refine (isObjType_lockstep h).bind fun _ => .ite (fun _ => .fail _) fun _ => (envFields_lockstep h).bind fun e => ?_
  split
  · exact h.writeObj _ _
  · refine .ite (fun _ => ?_) fun _ => (Sim.pure _).bind fun _ => h.writeObj _ _
    refine Sim.bind ?_ fun _ => h.writeObj _ _
    exact (h.rawAlloc _).bind fun _ => (h.rawAlloc _).bind fun _ => .pure _

theorem mlEnvSet_lockstep : Sim bl br R (mlEnvSet env name value) (mlEnvSet env name value) := by
  have hloop : ∀ n cur, Sim bl br R (envSetLoop name value n cur) (envSetLoop name value n cur) := by
    intro n
    induction n with
    | zero => exact fun _ => .timeout
    | succ n ih =>
      intro cur
      refine (isObjType_lockstep h).bind fun _ => .ite (fun _ => (envFields_lockstep h).bind fun e => ?_)
        fun _ => .fail _
      split
      · exact h.writeObj _ _
      · exact ih _
  exact .ite (fun _ => (walkBound_lockstep h).bind fun _ => hloop _ _) fun _ => .fail _

theorem mlEnvLookup_lockstep : Sim bl br R (mlEnvLookup env name) (mlEnvLookup env name) := by
  have hloop : ∀ n cur, Sim bl br R (envLookupLoop name n cur) (envLookupLoop name n cur) := by
    intro n
    induction n with
    | zero => exact fun _ => .timeout
    | succ n ih =>
      intro cur
      refine (isObjType_lockstep h).bind fun _ => .ite (fun _ => (envFields_lockstep h).bind fun e => ?_)
        fun _ => .fail _
      split
      · exact .pure _
      · exact ih _
  exact .ite (fun _ => (walkBound_lockstep h).bind fun _ => hloop _ _) fun _ => .fail _

/-! ## Equality -/

theorem mlValueEqv_lockstep : Sim bl br R (mlValueEqv v w) (mlValueEqv v w) := by
  refine .ite (fun _ => .pure _) fun _ => (isObjType_lockstep h).bind fun _ => .ite (fun _ => ?_) fun _ => .pure _
  refine (isObjType_lockstep h).bind fun _ => .ite (fun _ => ?_) fun _ => .pure _
  exact (stringBytes_lockstep h).bind fun _ => (stringBytes_lockstep h).bind fun _ => .pure _

theorem leaveEqual_lockstep (s t : State) (hR : R s t) : R (leaveEqual s) (leaveEqual t) := by
  unfold leaveEqual
  rw [← h.equalDepth s t hR]
  exact h.setEqualDepth _ s t hR

theorem mlValueEqual_lockstep : Sim bl br R (mlValueEqual c v w) (mlValueEqual c' v w) := by
  have hdepth : Sim bl br R (gets State.equalDepth : ML Nat) (gets State.equalDepth : ML Nat) := .gets h.equalDepth
  have hloop : ∀ n n', n = n' ∨ (n ≤ n' ∧ bl .timeout) → ∀ v w, Sim bl br R (valueEqual c n v w)
      (valueEqual c' n' v w) := by
    intro n
    induction n with
    | zero =>
      rintro n' (rfl | ⟨-, ht⟩) v w
      · exact .timeout
      · exact fun s t _ => simAt_of_left rfl ht
    | succ n ih =>
      intro n' hn v w
      obtain ⟨n', rfl⟩ : ∃ k, n' = k + 1 := ⟨n' - 1, by omega⟩
      have hloop := ih n' (hn.imp Nat.succ.inj (And.imp_left Nat.le_of_succ_le_succ))
      refine hdepth.bind fun _ => limit_lockstep h h.maxEqualDepth (fun hm => by rw [hm])
        ((mlValueEqv_lockstep h).bind fun _ => ?_)
      refine .ite (fun _ => .pure _) fun _ => (isObjType_lockstep h).bind fun _ => .ite (fun _ => .pure _) fun _ => ?_
      refine (isObjType_lockstep h).bind fun _ => .ite (fun _ => .pure _) fun _ => ?_
      refine (car_lockstep h).bind fun _ => (car_lockstep h).bind fun _ =>
        (Sim.modify fun s t hR => ?_).bind fun _ => ?_
      · rw [← h.equalDepth s t hR]
        exact h.setEqualDepth _ s t hR
      · refine ((hloop _ _).onErr (leaveEqual_lockstep h)).bind fun _ => .ite (fun _ => ?_) fun _ => ?_
        · exact (Sim.modify (leaveEqual_lockstep h)).bind fun _ => .pure _
        · exact (cdr_lockstep h).bind fun _ => (cdr_lockstep h).bind fun _ => (hloop _ _).andThen
            (leaveEqual_lockstep h)
  refine hdepth.bind fun d => hloop _ _ ?_ _ _
  rcases h.maxEqualDepth with hm | ⟨hm, -, ht⟩
  · exact .inl (by rw [hm])
  · exact .inr ⟨by omega, ht⟩

/-! ## Printing -/

section Printing
variable {β : Type} {out out' : Sink β} (hout : ∀ user bytes, Sim bl br R (out user bytes) (out' user bytes))
include hout

omit h in
theorem emitTo_lockstep {user : β} {bytes : Bytes} : Sim bl br R (emitTo out user bytes) (emitTo out' user bytes) :=
  .ite (fun _ => .pure _) fun _ => hout _ _

omit h in
theorem emitStringQuoted_lockstep {user : β} {bytes : Bytes} :
    Sim bl br R (emitStringQuoted out user bytes) (emitStringQuoted out' user bytes) := by
  have hloop : ∀ bs run user, Sim bl br R (emitQuotedLoop out bs run user) (emitQuotedLoop out' bs run user) := by
    intro bs
    induction bs with
    | nil => exact fun _ _ => emitTo_lockstep hout
    | cons b bs ih =>
      intro run user
      refine .ite (fun _ => ?_) fun _ => ih _ _
      exact (emitTo_lockstep hout).bind fun _ => (emitTo_lockstep hout).bind fun _ => ih _ _
  exact (emitTo_lockstep hout).bind fun _ => (hloop _ _ _).bind fun _ => emitTo_lockstep hout

theorem printSpine_lockstep {pv pv' : Val → β → ML β} (hp : ∀ v user, Sim bl br R (pv v user) (pv' v user)) (n : Nat)
    (rest : Val) (user : β) : Sim bl br R (printSpine out pv n rest user) (printSpine out' pv' n rest user) := by
  induction n generalizing rest user with
  | zero => exact .timeout
  | succ n ih =>
    refine (isObjType_lockstep h).bind fun _ => .ite (fun _ => ?_) fun _ => .ite (fun _ => ?_) fun _ => .pure _
    · refine (emitTo_lockstep hout).bind fun _ => (car_lockstep h).bind fun _ => (hp _ _).bind fun _ => ?_
      exact (cdr_lockstep h).bind fun _ => ih _ _
    · exact (emitTo_lockstep hout).bind fun _ => hp _ _

theorem printObject_lockstep {writeStyle : Bool} {pv pv' : Val → β → ML β}
    (hp : ∀ v user, Sim bl br R (pv v user) (pv' v user)) {user : β} :
    Sim bl br R (printObject out writeStyle pv v user) (printObject out' writeStyle pv' v user) := by
  have hemit : ∀ {user bytes}, Sim bl br R (emitTo out user bytes) (emitTo out' user bytes) := emitTo_lockstep hout
  refine (isObjType_lockstep h).bind fun _ => .ite (fun _ => (stringBytes_lockstep h).bind fun _ => ?_) fun _ => ?_
  · exact .ite (fun _ => emitStringQuoted_lockstep hout) fun _ => hemit
  refine (isObjType_lockstep h).bind fun _ => .ite (fun _ => hemit.bind fun _ => Sim.bind ?_ fun _ => hemit) fun _ => ?_
  · refine (car_lockstep h).bind fun _ => (hp _ _).bind fun _ => (cdr_lockstep h).bind fun _ => ?_
    exact (walkBound_lockstep h).bind fun _ => printSpine_lockstep h hout hp _ _ _
  refine (isObjType_lockstep h).bind fun _ => .ite (fun _ => (primFields_lockstep h).bind fun _ => hemit) fun _ => ?_
  refine (isObjType_lockstep h).bind fun _ => .ite (fun _ => hemit) fun _ => ?_
  exact (isObjType_lockstep h).bind fun _ => .ite (fun _ => hemit) fun _ => hemit

theorem printValueInner_lockstep {writeStyle : Bool} {pv pv' : Val → β → ML β}
    (hp : ∀ v user, Sim bl br R (pv v user) (pv' v user)) {user : β} :
    Sim bl br R (printValueInner out writeStyle pv v user) (printValueInner out' writeStyle pv' v user) := by
  cases v with
  | fix p => exact emitTo_lockstep hout
  | imm i => cases i <;> exact emitTo_lockstep hout
  | sym i => exact (mlSymName_lockstep h).bind fun _ => emitTo_lockstep hout
  | obj a => exact printObject_lockstep h hout hp
  | reserved w => exact printObject_lockstep h hout hp

theorem mlPrint_lockstep {writeStyle : Bool} {user : β} :
    Sim bl br R (mlPrint out c v writeStyle user) (mlPrint out' c' v writeStyle user) := by
  have hdepth : Sim bl br R (gets State.printDepth : ML Nat) (gets State.printDepth : ML Nat) := .gets h.printDepth
  have hloop : ∀ n n', n = n' ∨ (n ≤ n' ∧ bl .timeout) → ∀ v user,
      Sim bl br R (printValue out c writeStyle n v user) (printValue out' c' writeStyle n' v user) := by
    intro n
    induction n with
    | zero =>
      rintro n' (rfl | ⟨-, ht⟩) v user
      · exact .timeout
      · exact fun s t _ => simAt_of_left rfl ht
    | succ n ih =>
      intro n' hn v user
      obtain ⟨n', rfl⟩ : ∃ k, n' = k + 1 := ⟨n' - 1, by omega⟩
      refine hdepth.bind fun _ => limit_lockstep h h.maxPrintDepth (fun hm => by rw [hm]) ?_
      refine (Sim.modify fun s t hR => ?_).bind fun _ => ?_
      · rw [← h.printDepth s t hR]
        exact h.setPrintDepth _ s t hR
      · refine (printValueInner_lockstep h hout
          (ih n' (hn.imp Nat.succ.inj (And.imp_left Nat.le_of_succ_le_succ)))).andThen fun s t hR => ?_
        unfold leavePrint
        rw [← h.printDepth s t hR]
        exact h.setPrintDepth _ s t hR
  refine hdepth.bind fun d => hloop _ _ ?_ _ _
  rcases h.maxPrintDepth with hm | ⟨hm, -, ht⟩
  · exact .inl (by rw [hm])
  · exact .inr ⟨by omega, ht⟩

end Printing

/-! ## Primitives -/

variable {argv : List Val} {i : Nat} {what : String}

omit h in
theorem argvGet_lockstep : Sim bl br R (argvGet argv i) (argvGet argv i) := by
  unfold argvGet
  split
  · exact .pure _
  · exact .stuck

omit h in
theorem makeFix_sim {x : Int} : Sim bl br R (makeFix x) (makeFix x) := (Sim.emit _ _).bind fun _ => .pure _

omit h in
theorem int64Op_sim {x : Int} : Sim bl br R (int64Op x) (int64Op x) := by
  apply (Sim.emit _ _).bind
  intro _
  cases int64Checked x with
  | some r => exact .pure r
  | none => exact .stuck

theorem expectFix_lockstep : Sim bl br R (expectFix v what) (expectFix v what) := by
  cases v with
  | fix p => exact .pure _
  | _ => exact raise_lockstep h

/-- The value of an argument, when it is a number. -/
theorem argFix_lockstep {f f' : Int → ML α} (hf : ∀ x, Sim bl br R (f x) (f' x)) :
    Sim bl br R (argvGet argv i >>= fun v => expectFix v what >>= f)
      (argvGet argv i >>= fun v => expectFix v what >>= f') :=
  argvGet_lockstep.bind fun _ => (expectFix_lockstep h).bind hf

theorem foldFix_lockstep {op : Int → Int → Int} {acc : Int} :
    Sim bl br R (foldFix op what argv acc) (foldFix op what argv acc) := by
  induction argv generalizing acc with
  | nil => exact .pure _
  | cons a argv ih =>
    refine (expectFix_lockstep h).bind fun v => ?_
    split
    · exact .ite (fun _ => ih) fun _ => raise_lockstep h
    · exact raise_lockstep h

theorem primSub_lockstep : Sim bl br R (primSub argv) (primSub argv) := by
  refine .ite (fun _ => argFix_lockstep h fun _ => ?_) fun _ => argFix_lockstep h fun _ => ?_
  · exact int64Op_sim.bind fun _ => .ite (fun _ => makeFix_sim) fun _ => raise_lockstep h
  · exact (foldFix_lockstep h).bind fun _ => makeFix_sim

omit h in
theorem int64Div_lockstep {a b : Int} : Sim bl br R (int64Div a b : ML Int) (int64Div a b : ML Int) :=
  .ite (fun _ => .stuck) fun _ => int64Op_sim

omit h in
theorem int64Rem_lockstep {a b : Int} : Sim bl br R (int64Rem a b : ML Int) (int64Rem a b : ML Int) :=
  int64Div_lockstep.bind fun _ => .pure _

theorem primDiv_lockstep : Sim bl br R (primDiv argv) (primDiv argv) := by
  have hloop : ∀ argv acc, Sim bl br R (divLoop argv acc) (divLoop argv acc) := by
    intro argv
    induction argv with
    | nil => exact fun _ => .pure _
    | cons a argv ih =>
      refine fun acc => (expectFix_lockstep h).bind fun v => .ite (fun _ => raise_lockstep h) fun _ => ?_
      exact int64Div_lockstep.bind fun _ => .ite (fun _ => ih _) fun _ => raise_lockstep h
  refine .ite (fun _ => argFix_lockstep h fun _ => ?_) fun _ => argFix_lockstep h fun _ => ?_
  · exact .ite (fun _ => raise_lockstep h) fun _ => makeFix_sim
  · exact (hloop _ _).bind fun _ => makeFix_sim

theorem primQuotient_lockstep : Sim bl br R (primQuotient argv) (primQuotient argv) := by
  refine argFix_lockstep h fun _ => argFix_lockstep h fun _ => .ite (fun _ => raise_lockstep h) fun _ => ?_
  exact int64Div_lockstep.bind fun _ => .ite (fun _ => makeFix_sim) fun _ => raise_lockstep h

theorem primRemainder_lockstep : Sim bl br R (primRemainder argv) (primRemainder argv) := by
  refine argFix_lockstep h fun _ => argFix_lockstep h fun _ => .ite (fun _ => raise_lockstep h) fun _ => ?_
  exact .ite (fun _ => makeFix_sim) fun _ => int64Rem_lockstep.bind fun _ => makeFix_sim

theorem primModulo_lockstep : Sim bl br R (primModulo argv) (primModulo argv) := by
  refine argFix_lockstep h fun _ => argFix_lockstep h fun _ => .ite (fun _ => raise_lockstep h) fun _ => ?_
  apply int64Rem_lockstep.bind
  intro r
  exact .ite (fun _ => int64Op_sim.bind fun _ => makeFix_sim) fun _ => (Sim.pure r).bind fun _ => makeFix_sim

theorem cmpChain_lockstep {op : CmpOp} {name : String} :
    Sim bl br R (cmpChain op name argv) (cmpChain op name argv) := by
  have hloop : ∀ argv prev, Sim bl br R (cmpLoop op name argv prev) (cmpLoop op name argv prev) := by
    intro argv
    induction argv with
    | nil => exact fun _ => .pure _
    | cons a argv ih => exact fun _ => (expectFix_lockstep h).bind fun _ => .ite (fun _ => ih _) fun _ => .pure _
  exact argFix_lockstep h fun _ => hloop _ _

theorem primList_lockstep : Sim bl br R (primList c argv) (primList c' argv) := by
  have hloop : ∀ n n', P n n' → ∀ i head, Sim bl br R (primListLoop c argv n i head)
      (primListLoop c' argv n' i head) := by
    intro n n' hn i
    induction i with
    | zero => exact fun _ => .pure _
    | succ i ih =>
      refine fun head => argvGet_lockstep.bind fun _ => ?_
      refine (onErr_restore_lockstep h hn (h.gcAlloc _ _)).bind fun cell => ?_
      exact (Sim.modify fun s t => h.setSlot n n' cell s t hn).bind fun _ => ih _
  refine savepoint_lockstep h fun n n' hn => (h.protect _).bind fun _ => (hloop n n' hn _ _).bind fun _ => ?_
  exact (Sim.modify fun s t => h.restore n n' s t hn).bind fun _ => .pure _

theorem walkList_lockstep (bound : Nat) {n : Nat} : Sim bl br R (walkList bound v n) (walkList bound v n) := by
  induction bound generalizing v n with
  | zero => exact .timeout
  | succ bound ih =>
    exact (isObjType_lockstep h).bind fun _ => .ite (fun _ => (cdr_lockstep h).bind fun _ => ih) fun _ => .pure _

omit h in
theorem definePredicate_lockstep {test : Val → ML Bool} (ht : ∀ v, Sim bl br R (test v) (test v)) :
    Sim bl br R (definePredicate test argv) (definePredicate test argv) :=
  argvGet_lockstep.bind fun _ => (ht _).bind fun _ => .pure _

theorem stateOutputSink_lockstep {user : Unit} {bytes : Bytes} :
    Sim bl br R (stateOutputSink c user bytes) (stateOutputSink c' user bytes) := by
  unfold stateOutputSink
  rw [← h.fwrite]
  refine (Sim.gets h.writes).bind fun _ => (Sim.modify fun s t => h.write _ s t).bind fun _ => ?_
  exact .ite (fun _ => .fail _) fun _ => .pure _

theorem stateOutputFlush_lockstep : Sim bl br R (stateOutputFlush c) (stateOutputFlush c') := by
  unfold stateOutputFlush
  rw [← h.fflush]
  refine (Sim.gets h.flushes).bind fun _ => (Sim.modify fun s t => h.flush s t).bind fun _ => ?_
  exact .ite (fun _ => .pure _) fun _ => .fail _

theorem printAndFlush_lockstep {writeStyle : Bool} :
    Sim bl br R (printAndFlush c writeStyle argv) (printAndFlush c' writeStyle argv) :=
  argvGet_lockstep.bind fun _ => (mlPrint_lockstep h fun _ _ => stateOutputSink_lockstep h).bind fun _ =>
    (stateOutputFlush_lockstep h).bind fun _ => .pure _

theorem primError_lockstep : Sim bl br R (primError argv) (primError argv) := by
  unfold primError
  split
  · exact raise_lockstep h
  · refine (isObjType_lockstep h).bind fun _ => .ite (fun _ => ?_) fun _ => .ite (fun _ => ?_) fun _ => raise_lockstep h
    · exact (stringBytes_lockstep h).bind fun _ => raise_lockstep h
    · exact (mlSymName_lockstep h).bind fun _ => raise_lockstep h

/-- Every primitive runs in lockstep. -/
theorem callPrim_lockstep {fn : PrimFn} : Sim bl br R (callPrim c fn argv) (callPrim c' fn argv) := by
  have htest : ∀ {p : Obj → Bool} {v}, Sim bl br R (isObjType p v) (isObjType p v) := isObjType_lockstep h
  cases fn with
  | add => exact (foldFix_lockstep h).bind fun _ => makeFix_sim
  | sub => exact primSub_lockstep h
  | mul => exact (foldFix_lockstep h).bind fun _ => makeFix_sim
  | div => exact primDiv_lockstep h
  | quotient => exact primQuotient_lockstep h
  | remainder => exact primRemainder_lockstep h
  | modulo => exact primModulo_lockstep h
  | numEq => exact cmpChain_lockstep h
  | numLt => exact cmpChain_lockstep h
  | numGt => exact cmpChain_lockstep h
  | numLe => exact cmpChain_lockstep h
  | numGe => exact cmpChain_lockstep h
  | cons => exact argvGet_lockstep.bind fun _ => argvGet_lockstep.bind fun _ => h.gcAlloc _ _
  | car =>
    exact argvGet_lockstep.bind fun _ => htest.bind fun _ => .ite (fun _ => car_lockstep h) fun _ => raise_lockstep h
  | cdr =>
    exact argvGet_lockstep.bind fun _ => htest.bind fun _ => .ite (fun _ => cdr_lockstep h) fun _ => raise_lockstep h
  | list => exact primList_lockstep h
  | length =>
    refine argvGet_lockstep.bind fun _ => (walkBound_lockstep h).bind fun _ => (walkList_lockstep h _).bind fun _ => ?_
    exact .ite (fun _ => raise_lockstep h) fun _ => .ite (fun _ => raise_lockstep h) fun _ => makeFix_sim
  | nullP => exact definePredicate_lockstep fun _ => .pure _
  | pairP => exact definePredicate_lockstep fun _ => htest
  | numberP => exact definePredicate_lockstep fun _ => .pure _
  | symbolP => exact definePredicate_lockstep fun _ => .pure _
  | stringP => exact definePredicate_lockstep fun _ => htest
  | procedureP => exact definePredicate_lockstep fun _ => mlIsProcedure_lockstep h
  | booleanP => exact definePredicate_lockstep fun _ => .pure _
  | eqP => exact argvGet_lockstep.bind fun _ => argvGet_lockstep.bind fun _ => .pure _
  | eqvP =>
    exact argvGet_lockstep.bind fun _ => argvGet_lockstep.bind fun _ => (mlValueEqv_lockstep h).bind fun _ => .pure _
  | equalP =>
    exact argvGet_lockstep.bind fun _ => argvGet_lockstep.bind fun _ => (mlValueEqual_lockstep h).bind fun _ => .pure _
  | not => exact definePredicate_lockstep fun _ => .pure _
  | display => exact printAndFlush_lockstep h
  | write => exact printAndFlush_lockstep h
  | newline => exact (stateOutputSink_lockstep h).bind fun _ => (stateOutputFlush_lockstep h).bind fun _ => .pure _
  | error => exact primError_lockstep h

end Lockstep
end Microlisp
