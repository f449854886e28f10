import Microlisp.Api
import Microlisp.Lockstep.Eval
/-!
# Reading and whole calls in lockstep
-/
namespace Microlisp

open Prog

/-- What two readers in lockstep need besides. -/
structure LockstepRead (bl br : Halt Status → Prop) (c c' : Config) (P : Nat → Nat → Prop)
    (R : State → State → Prop) : Prop
    extends Lockstep bl br c c' P R where
  maxReadDepth : Limits bl .errReadDepth c.maxReadDepth c'.maxReadDepth
  symQuote : c.symQuote = c'.symQuote
  setSymtab : ∀ tab s t, R s t → R { s with symtab := tab } { t with symtab := tab }

/-- Readers whose symbol tables may matter: they intern alike. -/
structure LockstepNames (bl br : Halt Status → Prop) (c c' : Config) (P : Nat → Nat → Prop)
    (R : State → State → Prop) : Prop
    extends Lockstep bl br c c' P R where
  maxReadDepth : Limits bl .errReadDepth c.maxReadDepth c'.maxReadDepth
  symQuote : c.symQuote = c'.symQuote
  intern : ∀ name, Sim bl br R (mlSymIntern c name) (mlSymIntern c' name)

/-- The steps that a reader takes. It overwrites nothing but the tails of its own pairs. -/
structure LockstepSteps (bl br : Halt Status → Prop) (c c' : Config) (P : Nat → Nat → Prop)
    (R : State → State → Prop) : Prop where
  maxReadDepth : Limits bl .errReadDepth c.maxReadDepth c'.maxReadDepth
  symQuote : c.symQuote = c'.symQuote
  intern : ∀ name, Sim bl br R (mlSymIntern c name) (mlSymIntern c' name)
  cdr : ∀ v, Sim bl br R (cdr v) (cdr v)
  setCdr : ∀ v d, Sim bl br R (setCdr v d) (setCdr v d)
  gcAlloc : ∀ size o, Sim bl br R (gcAlloc c size o) (gcAlloc c' size o)
  rawAlloc : ∀ size, Sim bl br R (rawAllocOrFail c size) (rawAllocOrFail c' size)
  protect : ∀ v, Sim bl br R (mlGcProtect c v) (mlGcProtect c' v)
  height : ∀ s t, R s t → P s.gcProtect.length t.gcProtect.length
  restore : ∀ n n' s t, P n n' → R s t → R (mlGcRestore n s) (mlGcRestore n' t)
  unprotect : ∀ n s t, R s t → R (mlGcUnprotect n s) (mlGcUnprotect n t)
  setError : ∀ line column message s t, R s t → R (mlSetError line column message s) (mlSetError line column message t)

/-- What two calls in lockstep need. -/
structure LockstepCall (bl br : Halt Status → Prop) (c c' : Config) (P : Nat → Nat → Prop)
    (R : State → State → Prop) : Prop
    extends LockstepEval bl br c c' P R, LockstepRead bl br c c' P R where
  toplevelEnv : c.toplevelEnv = c'.toplevelEnv
  clearError : ∀ s t, R s t → R (mlClearError s) (mlClearError t)

section Lockstep
variable {bl br : Halt Status → Prop} {c c' : Config} {P : Nat → Nat → Prop} {R : State → State → Prop}

section Tokens
variable (h : LockstepSteps bl br c c' P R) {r : Reader} {α : Type}
include h

theorem LockstepSteps.raise {line column : Nat} {message : Bytes} {e : Status} :
    Sim bl br R (raise line column message e : ML α) (raise line column message e) :=
  (Sim.modify fun s t => h.setError line column message s t).bind fun _ => .fail e

theorem LockstepSteps.savepoint {f f' : Nat → ML α} (hf : ∀ n n', P n n' → Sim bl br R (f n) (f' n')) :
    Sim bl br R (mlGcSavepoint >>= f) (mlGcSavepoint >>= f') :=
  .gets_bind fun s t hR => hf _ _ (h.height s t hR) s t hR

theorem LockstepSteps.onErr {m m' : ML α} {n n' : Nat} (hn : P n n') (hm : Sim bl br R m m') :
    Sim bl br R (m.onErr (mlGcRestore n)) (m'.onErr (mlGcRestore n')) :=
  hm.onErr fun s t => h.restore n n' s t hn

theorem readEscape_lockstep {l k : Nat} : Sim bl br R (readEscape l k r) (readEscape l k r) := by
  unfold readEscape
  cases r.peek with
  | none => exact h.raise
  | some esc =>
    -- six escapes that name one byte, and the hex escape
    iterate 6 refine .ite (fun _ => .pure _) fun _ => ?_
    refine .ite (fun _ => ?_) fun _ => h.raise
    dsimp only
    split
    · exact .pure _
    · exact h.raise

theorem readStringLoop_lockstep {l k : Nat} (n : Nat) (r : Reader) (buf : Bytes) (cap : Nat) :
    Sim bl br R (readStringLoop c l k n r buf cap) (readStringLoop c' l k n r buf cap) := by
  induction n generalizing r buf cap with
  | zero => exact .timeout
  | succ n ih =>
    unfold readStringLoop
    cases r.peek with
    | none => exact h.raise
    | some b =>
      apply Sim.ite
      · exact fun _ => .pure _
      · intro _
        have hpush : ∀ x : UInt8 × Reader, Sim bl br R (do
            let cap ← if buf.length = cap then do
                rawAllocOrFail c (cap * 2)
                pure (cap * 2)
              else pure cap
            readStringLoop c l k n x.2 (buf ++ [x.1]) cap) (do
            let cap ← if buf.length = cap then do
                rawAllocOrFail c' (cap * 2)
                pure (cap * 2)
              else pure cap
            readStringLoop c' l k n x.2 (buf ++ [x.1]) cap) := fun x =>
          .ite (fun _ => (h.rawAlloc _).bind fun _ => (Sim.pure _).bind fun _ => ih _ _ _) fun _ =>
            (Sim.pure _).bind fun _ => ih _ _ _
        exact .ite (fun _ => (readEscape_lockstep h).bind hpush) fun _ => (Sim.pure _).bind hpush

theorem readString_lockstep : Sim bl br R (readString c r) (readString c' r) :=
  (h.rawAlloc _).bind fun _ => (readStringLoop_lockstep h _ _ _ _).bind fun _ => (h.gcAlloc _ _).bind fun _ => .pure _

theorem readHash_lockstep : Sim bl br R (readHash r) (readHash r) :=
  .ite (fun _ => .pure _) fun _ => .ite (fun _ => .pure _) fun _ => h.raise

theorem readNumber_lockstep {sign : Int} : Sim bl br R (readNumber sign r) (readNumber sign r) := by
  unfold readNumber
  dsimp only
  split
  · exact h.raise
  · rename_i value any r' _
    apply Sim.ite (fun _ => h.raise)
    intro _
    apply Sim.ite (fun _ => h.raise)
    intro _
    have hfix : ∀ x : Int, Sim bl br R (if x < mFixMin || x > mFixMax then
        (raise r.line r.column (ascii "integer literal exceeds 60-bit fixnum range") .errOverflow : ML (Val × Reader))
      else do
        let v ← makeFix x
        pure (v, r')) (if x < mFixMin || x > mFixMax then
        (raise r.line r.column (ascii "integer literal exceeds 60-bit fixnum range") .errOverflow : ML (Val × Reader))
      else do
        let v ← makeFix x
        pure (v, r')) := fun _ => .ite (fun _ => h.raise) fun _ => makeFix_sim.bind fun _ => .pure _
    exact .ite (fun _ => int64Op_sim.bind hfix) fun _ => (Sim.pure _).bind hfix

end Tokens

theorem setCdr_lockstep (h : Lockstep bl br c c' P R) {v d : Val} : Sim bl br R (setCdr v d) (setCdr v d) := by
  apply (asObj_lockstep h).bind
  intro o
  cases o with
  | pair => exact h.writeObj _ _
  | _ => exact .stuck

theorem mlSymIntern_lockstep (h : LockstepRead bl br c c' P R) {name : Bytes} :
    Sim bl br R (mlSymIntern c name) (mlSymIntern c' name) := by
  have hsymtab : ∀ f : Symtab → Symtab, Sim bl br R (modify fun s => { s with symtab := f s.symtab } : ML Unit)
      (modify fun s => { s with symtab := f s.symtab } : ML Unit) := by
    intro f
    apply Sim.modify
    intro s t hR
    rw [h.symtab s t hR]
    exact h.setSymtab _ s t hR
  apply (Sim.gets fun s t hR => by rw [h.symtab s t hR]).bind
  intro entries
  split
  · exact .pure _
  · apply (Sim.gets fun s t hR => by rw [h.symtab s t hR]).bind
    intro capacity
    have hadd : Sim bl br R (if entries.length > 0x0FFFFFFF then fail .errNomem else do
        rawAllocOrFail c (name.length + 1)
        modify fun s => { s with symtab := ⟨s.symtab.entries ++ [name], s.symtab.capacity⟩ }
        pure (mlMakeSym entries.length) : ML Val) (if entries.length > 0x0FFFFFFF then fail .errNomem else do
        rawAllocOrFail c' (name.length + 1)
        modify fun s => { s with symtab := ⟨s.symtab.entries ++ [name], s.symtab.capacity⟩ }
        pure (mlMakeSym entries.length) : ML Val) :=
      .ite (fun _ => .fail _) fun _ => (h.rawAlloc _).bind fun _ =>
        (hsymtab fun tab => ⟨tab.entries ++ [name], tab.capacity⟩).bind fun _ => .pure _
    apply Sim.ite
    · intro _
      exact (h.rawAlloc _).bind fun _ => (hsymtab fun tab => ⟨tab.entries, _⟩).bind fun _ => hadd
    · exact fun _ => hadd

theorem LockstepRead.names (h : LockstepRead bl br c c' P R) : LockstepNames bl br c c' P R :=
  { h with intern := fun _ => mlSymIntern_lockstep h }

theorem LockstepNames.steps (h : LockstepNames bl br c c' P R) : LockstepSteps bl br c c' P R :=
  { h with
    cdr := fun _ => cdr_lockstep h.toLockstep
    setCdr := fun _ _ => setCdr_lockstep h.toLockstep }

section Reading
variable (h : LockstepSteps bl br c c' P R) {r : Reader}
include h

theorem readSymbol_lockstep : Sim bl br R (readSymbol c r) (readSymbol c' r) :=
  (h.intern _).bind fun _ => .pure _

section Forms
variable {rf rf' : Reader → ML (Val × Reader)} (hrf : ∀ r, Sim bl br R (rf r) (rf' r))
include hrf

theorem readListLoop_lockstep {sp sp' : Nat} (hsp : P sp sp') {head : Val} (n : Nat) (tail : Val) (r : Reader) :
    Sim bl br R (readListLoop c rf sp head n tail r) (readListLoop c' rf' sp' head n tail r) := by
  induction n generalizing tail r with
  | zero => exact .timeout
  | succ n ih =>
    unfold readListLoop
    dsimp only
    cases (skipWsAndComments r).peek with
    | none => exact h.onErr hsp h.raise
    | some b =>
      apply Sim.ite (fun _ => .pure _)
      intro _
      apply Sim.ite
      · intro _
        apply Sim.ite (fun _ => h.onErr hsp h.raise)
        intro _
        apply (h.onErr hsp (hrf _)).bind
        rintro ⟨cdrForm, r⟩
        apply (h.setCdr _ _).bind
        intro _
        exact .ite (fun _ => h.onErr hsp h.raise) fun _ => .pure _
      · intro _
        apply (h.onErr hsp (hrf _)).bind
        rintro ⟨elem, r⟩
        apply (h.onErr hsp (h.protect _)).bind
        intro _
        apply (h.onErr hsp ((h.gcAlloc _ _).andThen fun s t => h.unprotect 1 s t)).bind
        intro cell
        exact (h.setCdr _ _).bind fun _ => ih _ _

theorem readList_lockstep : Sim bl br R (readList c rf r) (readList c' rf' r) := by
  apply limit_sim h.raise h.maxReadDepth (fun hm => by rw [hm])
  apply Sim.ite (fun _ => .pure _)
  intro _
  apply h.savepoint
  intro sp sp' hsp
  apply (h.gcAlloc _ _).bind
  intro head
  apply (h.protect _).bind
  intro _
  apply (readListLoop_lockstep h hrf hsp _ _ _).bind
  intro r
  apply (h.cdr _).bind
  intro out
  exact (Sim.modify fun s t => h.restore sp sp' s t hsp).bind fun _ => .pure _

theorem readQuote_lockstep : Sim bl br R (readQuote c rf r) (readQuote c' rf' r) := by
  unfold readQuote
  rw [← h.symQuote]
  apply (hrf _).bind
  rintro ⟨form, r⟩
  apply Sim.ite (fun _ => h.raise)
  intro _
  apply h.savepoint
  intro sp sp' hsp
  apply (h.protect _).bind
  intro _
  apply (h.onErr hsp (h.gcAlloc _ _)).bind
  intro inner
  apply (Sim.modify fun s t => h.unprotect 1 s t).bind
  intro _
  apply (h.protect _).bind
  intro _
  exact ((h.gcAlloc _ _).andThen fun s t => h.restore sp sp' s t hsp).bind fun _ => .pure _

end Forms

theorem readForm_lockstep (n : Nat) (r : Reader) : Sim bl br R (readForm c n r) (readForm c' n r) := by
  induction n generalizing r with
  | zero => exact .timeout
  | succ n ih =>
    unfold readForm
    dsimp only
    cases (skipWsAndComments r).peek with
    | none => exact .pure _
    | some b =>
      apply Sim.ite (fun _ => readList_lockstep h ih)
      intro _
      apply Sim.ite (fun _ => h.raise)
      intro _
      apply Sim.ite (fun _ => readQuote_lockstep h ih)
      intro _
      apply Sim.ite (fun _ => readString_lockstep h)
      intro _
      apply Sim.ite (fun _ => readHash_lockstep h)
      intro _
      apply Sim.ite (fun _ => readNumber_lockstep h)
      intro _
      apply Sim.ite
      · exact fun _ => .ite (fun _ => readNumber_lockstep h) fun _ => readSymbol_lockstep h
      · exact fun _ => readSymbol_lockstep h

theorem mlRead_steps : Sim bl br R (mlRead c r) (mlRead c' r) := readForm_lockstep h _ r

end Reading

theorem mlRead_lockstep (h : LockstepNames bl br c c' P R) {r : Reader} : Sim bl br R (mlRead c r) (mlRead c' r) :=
  mlRead_steps h.steps

/-! ## Calls -/

section Calls
variable (h : LockstepEval bl br c c' P R) (hn : LockstepNames bl br c c' P R)
include h

include hn in
theorem readEvalLoop_lockstep (htop : c.toplevelEnv = c'.toplevelEnv) (n turns : Nat) (r : Reader)
    (v : Val) (saw : Bool) :
    Sim bl br R (readEvalLoop c n turns r v saw) (readEvalLoop c' n turns r v saw) := by
  have h' := h.toLockstep
  induction turns generalizing r v saw with
  | zero => exact .timeout
  | succ turns ih =>
    unfold readEvalLoop
    rw [← htop]
    apply (mlRead_lockstep hn).bind
    rintro ⟨form, r⟩
    apply Sim.ite (fun _ => .pure _)
    intro _
    apply savepoint_lockstep h'
    intro sp sp' hsp
    apply (h.protect _).bind
    intro _
    exact (andThen_restore_lockstep h' hsp (mlEval_lockstep h n form _)).bind fun _ => ih _ _ _

theorem printBufSink_lockstep (pb : PrintBuf) (bytes : Bytes) :
    Sim bl br R (printBufSink c pb bytes) (printBufSink c' pb bytes) := by
  unfold printBufSink
  apply Sim.ite (fun _ => .fail _)
  intro _
  apply Sim.ite
  · intro _
    split
    · exact .fail _
    · exact (h.rawAlloc _).bind fun _ => .pure _
  · exact fun _ => .pure _

theorem printResult_lockstep {v : Val} {saw wantBytes : Bool} :
    Sim bl br R (printResult c v saw wantBytes) (printResult c' v saw wantBytes) := by
  have h' := h.toLockstep
  apply Sim.ite (fun _ => .pure _)
  intro _
  apply savepoint_lockstep h'
  intro sp sp' hsp
  apply (h.protect _).bind
  intro _
  apply (andThen_restore_lockstep h' hsp ?_).bind fun _ => .pure _
  apply (mlPrint_lockstep h' (printBufSink_lockstep h)).bind
  intro pb
  exact .ite (fun _ => (h.rawAlloc _).bind fun _ => .pure _) fun _ => (Sim.pure _).bind fun _ => .pure _

include hn in
/-- Calls from related states end alike. -/
theorem microlispEval_alike (htop : c.toplevelEnv = c'.toplevelEnv) (hclear : ∀ s t, R s t →
    R (mlClearError s) (mlClearError t))
    (n : Nat) (source : Option Bytes) (sourceLen : Nat) (wantBytes : Bool) :
    Sim bl br R (microlispEval c n source sourceLen wantBytes) (microlispEval c' n source sourceLen wantBytes) := by
  apply Sim.ite (fun _ => raise_lockstep h.toLockstep)
  intro _
  apply (Sim.modify hclear).bind
  intro _
  exact (readEvalLoop_lockstep h hn htop _ _ _ _ _).bind fun _ => printResult_lockstep h

end Calls

theorem microlispEval_lockstep (h : LockstepCall bl br c c' P R) (n : Nat) (source : Option Bytes) (sourceLen : Nat)
    (wantBytes : Bool) :
    Sim bl br R (microlispEval c n source sourceLen wantBytes) (microlispEval c' n source sourceLen wantBytes) :=
  microlispEval_alike h.toLockstepEval h.toLockstepRead.names h.toplevelEnv h.clearError _ _ _ _

end Lockstep
end Microlisp
