import Microlisp.Balance.Primitives
import Microlisp.Reader
/-!
# The reader leaves the bookkeeping alone

The list loop writes into the cells it has made itself, which are newer than
anything the caller knows.
-/
namespace Microlisp

open Prog

variable {c : Config} {S : Status → Prop} {s0 : State} {xs : List Val}
variable (hS : ∀ e, e ≠ .errEvalDepth → S e)
include hS

/-! ## Tokens -/

theorem readEscape_keeps {l k : Nat} {r : Reader} : Keeps c S s0 xs (readEscape l k r) := by
  unfold readEscape
  split
  · exact .raise (hS _ (by decide))
  · refine .ite .pure (.ite .pure (.ite .pure (.ite .pure (.ite .pure (.ite .pure (.ite ?_ ?_))))))
    · dsimp only
      split
      · exact .pure
      · exact .raise (hS _ (by decide))
    · exact .raise (hS _ (by decide))

theorem readStringLoop_keeps {l k : Nat} (n : Nat) (r : Reader) (buf : Bytes) (cap : Nat) :
    Keeps c S s0 xs (readStringLoop c l k n r buf cap) := by
  induction n generalizing r buf cap with
  | zero => exact .timeout
  | succ n ih =>
    unfold readStringLoop
    split
    · exact .raise (hS _ (by decide))
    · have hgrow : ∀ x : UInt8 × Reader, Keeps c S s0 xs (do
          let cap ← if buf.length = cap then do
              rawAllocOrFail c (cap * 2)
              pure (cap * 2)
            else
              pure cap
          readStringLoop c l k n x.2 (buf ++ [x.1]) cap) := fun x =>
        .ite (.bind (rawAllocOrFail_keeps hS) fun _ => .bind .pure fun _ => ih _ _ _) (.bind .pure fun _ => ih _ _ _)
      refine .ite .pure (.ite (.bind (readEscape_keeps hS) hgrow) (.bind .pure hgrow))

theorem readString_keeps {r : Reader} : Keeps c S s0 xs (readString c r) :=
  .bind (rawAllocOrFail_keeps hS) fun _ => .bind (readStringLoop_keeps hS _ _ _ _) fun _ =>
    .bind (gcAlloc_keeps hS) fun _ => .pure

theorem readHash_keeps {r : Reader} : Keeps c S s0 xs (readHash r) :=
  .ite .pure (.ite .pure (.raise (hS _ (by decide))))

theorem readNumber_keeps {sign : Int} {r : Reader} : Keeps c S s0 xs (readNumber sign r) := by
  unfold readNumber
  dsimp only
  split
  · exact .raise (hS _ (by decide))
  · refine .ite (.raise (hS _ (by decide))) (.ite (.raise (hS _ (by decide))) ?_)
    have hmake : ∀ value r', Keeps c S s0 xs (if value < mFixMin || value > mFixMax then
        raise r.line r.column (ascii "integer literal exceeds 60-bit fixnum range") .errOverflow
      else do
        let v ← makeFix value
        pure ((v, r') : Val × Reader)) :=
      fun _ _ => .ite (.raise (hS _ (by decide))) (.bind makeFix_keeps fun _ => .pure)
    exact .ite (.bind int64Op_keeps fun _ => hmake _ _) (.bind .pure fun _ => hmake _ _)

theorem readSymbol_keeps {r : Reader} : Keeps c S s0 xs (readSymbol c r) :=
  .bind (mlSymIntern_keeps hS) fun _ => .pure

/-! ## Lists and quotes -/

omit hS in
/-- A cell made since `s0` may be overwritten. -/
theorem setCdr_at {a : Nat} {d : Val} {E : Status → State → Prop} (ha : s0.heap.next ≤ a) :
    Triple (s0.watch c) (s0.At c xs) (setCdr (.obj a) d) (fun _ => s0.At c xs) E := by
  intro t h
  refine wp_bind (wp_mono (asObj_wp False.elim) ?_ (fun _ _ h => h))
  rintro o u ⟨rfl, -⟩
  split
  · have hx : ∀ b o, Val.obj a = .obj b → s0.heap.Ext c (u.heap.set b o) := by
      rintro _ o ⟨⟩
      exact h.heap.set fun hlt => absurd hlt (Nat.not_lt.2 ha)
    refine wp_mono (writeObj_wp False.elim fun b hb _ he => by cases he; exact hx b _ hb) ?_ (fun _ _ h => h)
    rintro _ u ⟨_, ⟨⟩, rfl⟩
    exact { h with heap := hx a _ rfl }
  · exact wp_stuck id

theorem readListLoop_at {rf : Reader → ML (Val × Reader)} (hrf : ∀ xs r, Keeps c S s0 xs (rf r))
    {head : Val} (n a : Nat)
    (ha : s0.heap.next ≤ a) (r : Reader) :
    Triple (s0.watch c) (s0.At c (xs ++ [head]))
      (readListLoop c rf (s0.gcProtect.length + xs.length) head n (.obj a) r) (fun _ => s0.At c (xs ++ [head]))
      (Fails c S s0 xs) := by
  have hraise : ∀ {α : Type} {l k : Nat} {message : Bytes} {e : Status}, e ≠ .errEvalDepth →
      Triple (s0.watch c) (s0.At c (xs ++ [head]))
        ((raise l k message e : ML α).onErr (mlGcRestore (s0.gcProtect.length + xs.length)))
        (fun _ => s0.At c (xs ++ [head])) (Fails c S s0 xs) :=
    fun he => onErr_restore (Keeps.raise (hS _ he))
  induction n generalizing a r with
  | zero => exact .timeout fun _ _ => id
  | succ n ih =>
    unfold readListLoop
    dsimp only
    split
    · exact hraise (by decide)
    · refine .ite (fun _ => .pure fun _ h => h) (fun _ => .ite (fun _ => ?_) (fun _ => ?_))
      · refine .ite (fun _ => hraise (by decide)) (fun _ => .seq (onErr_restore (hrf _ _)) fun x => ?_)
        refine .seq (setCdr_at ha) fun _ => .ite (fun _ => hraise (by decide)) (fun _ => .pure fun _ h => h)
      · refine .seq (onErr_restore (hrf _ _)) fun x => .bind (onErr_restore (mlGcProtect_at hS)) fun _ => ?_
        refine .bind (Q := fun v t => s0.At c (xs ++ [head]) t ∧ ∃ a, v = .obj a ∧ s0.heap.next ≤ a)
          (onErr_restore (r := [head]) (.andThen ?_)) fun cell => ?_
        · exact (gcAlloc_at hS).conseq (fun _ h => h) (fun _ _ h => ⟨h.1.unprotect (r := [_]), h.2⟩)
            (fun _ _ h => ⟨h.1, h.2.unprotect (r := [_])⟩)
        · rintro t ⟨h, b, rfl, hb⟩
          exact Triple.seq (setCdr_at ha) (fun _ => ih b hb x.2) t h

theorem readList_keeps {rf : Reader → ML (Val × Reader)} (hrf : ∀ xs r, Keeps c S s0 xs (rf r)) {r : Reader} :
    Keeps c S s0 xs (readList c rf r) := by
  refine .ite (.raise (hS _ (by decide))) (.ite .pure (savepoint_bind (.bind (gcAlloc_at hS) fun head => ?_)))
  rintro t ⟨h, a, rfl, ha⟩
  refine Triple.bind (mlGcProtect_at hS) (fun _ => ?_) t h
  refine .seq (readListLoop_at hS hrf _ a ha _) fun _ => .seq cdr_reads.triple fun _ => ?_
  exact .bind restore_at fun _ => .pure fun _ h => h

theorem readQuote_keeps {rf : Reader → ML (Val × Reader)} (hrf : ∀ xs r, Keeps c S s0 xs (rf r)) {r : Reader} :
    Keeps c S s0 xs (readQuote c rf r) := by
  refine .bind (hrf _ _) fun x => .ite (.raise (hS _ (by decide))) (savepoint_bind ?_)
  refine .bind (mlGcProtect_at hS) fun _ => .seq (onErr_restore (gcAlloc_keeps hS)) fun _ => ?_
  refine .bind (Q := fun _ => s0.At c xs) (.modify fun t h => h.unprotect (r := [_])) fun _ => ?_
  refine .bind (mlGcProtect_at hS) fun _ => .bind (andThen_restore (gcAlloc_keeps hS)) fun _ => .pure fun _ h => h

theorem readForm_keeps (n : Nat) (xs : List Val) (r : Reader) : Keeps c S s0 xs (readForm c n r) := by
  induction n generalizing xs r with
  | zero => exact .timeout
  | succ n ih =>
    unfold readForm
    dsimp only
    split
    · exact .pure
    · refine .ite (readList_keeps hS ih) (.ite (.raise (hS _ (by decide))) (.ite (readQuote_keeps hS ih) ?_))
      refine .ite (readString_keeps hS) (.ite (readHash_keeps hS) (.ite (readNumber_keeps hS) ?_))
      exact .ite (.ite (readNumber_keeps hS) (readSymbol_keeps hS)) (readSymbol_keeps hS)

theorem mlRead_keeps {r : Reader} : Keeps c S s0 xs (mlRead c r) := readForm_keeps hS _ xs r

end Microlisp
