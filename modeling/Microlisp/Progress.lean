import Microlisp.Api
import Microlisp.Lib.Limit
import Microlisp.Reading.Read
/-!
# Every read makes progress

From any state at all, a read ends: with a form, past at least one byte; at the end of the
input, with `MV_EOF`; or with an error. The count of nested forms, and those of the loops,
never run out, and what the heap is like does not matter.
-/
namespace Microlisp

open Prog Reader

/-! ## Runs that end -/

/-- Runs must not run out of fuel; they may get stuck. What `m` returns meets `Q`. -/
def Gives {α : Type} (m : ML α) (Q : α → Prop) : Prop :=
  Triple Mode.ending (fun _ => True) m (fun a _ => Q a) (fun _ _ => True)

namespace Gives

variable {α β : Type} {m m' : ML α} {f : α → ML β} {Q Q' : α → Prop} {U : β → Prop}

theorem pure {a : α} (h : Q a) : Gives (Pure.pure a : ML α) Q := Triple.pure fun _ _ => h

theorem stuck : Gives (Prog.stuck : ML α) Q := Triple.stuck fun _ _ => id

theorem raise {line column : Nat} {message : Bytes} {e : Status} :
    Gives (Microlisp.raise line column message e : ML α) Q :=
  fun _ _ => wp_bind (wp_modify (wp_fail trivial))

theorem modify {g : State → State} : Gives (Prog.modify g) (fun _ => True) := Triple.modify fun _ _ => trivial

theorem bind (h : Gives m Q) (hf : ∀ a, Q a → Gives (f a) U) : Gives (m >>= f) U :=
  Triple.bind h fun a s hq => hf a hq s trivial

theorem look {g : State → α} (hf : ∀ a, Gives (f a) U) : Gives (Prog.gets g >>= f) U :=
  bind (Q := fun _ => True) (Triple.gets fun _ _ => trivial) fun a _ => hf a

theorem seq (h : Gives m (fun _ => True)) (hf : ∀ a, Gives (f a) U) : Gives (m >>= f) U := h.bind fun a _ => hf a

theorem mono (h : Gives m Q) (hQ : ∀ a, Q a → Q' a) : Gives m Q' :=
  fun s hs => wp_mono (h s hs) (fun a _ => hQ a) fun _ _ h => h

theorem ite {b : Prop} [Decidable b] (h : b → Gives m Q) (h' : ¬ b → Gives m' Q) : Gives (if b then m else m') Q :=
  Triple.ite h h'

theorem onErr {g : State → State} (h : Gives m Q) : Gives (m.onErr g) Q := Triple.onErr h

theorem andThen {g : State → State} (h : Gives m Q) : Gives (m.andThen g) Q := Triple.andThen h

/-- What `wp` knows of every state. -/
theorem of_wp {Q : State → α → State → Prop} {E : State → Status → State → Prop}
    (h : ∀ s, wp Mode.ending m s (Q s) (E s)) :
    Gives m (fun _ => True) := fun s _ => wp_mono (h s) (fun _ _ _ => trivial) fun _ _ _ => trivial

end Gives

/-! ## Collections -/

section Collections
variable {c : Config} {s : State}

/-- How many objects a collection may still have to visit. -/
def State.toVisit (s : State) : Nat := s.heap.unmarked + s.gcMarklist.length

theorem gcVisit_ends {v : Val} :
    wp Mode.ending (gcVisit c v) s (fun _ t => t.toVisit ≤ s.toVisit) (fun _ _ => True) := by
  unfold gcVisit
  split
  · exact wp_pure (Nat.le_refl _)
  · rename_i a ha
    apply wp_bind (wp_gets _)
    cases hk : s.heap.cell? a with
    | none => exact wp_stuck id
    | some k =>
      obtain ⟨hkm, hka⟩ := Heap.cell?_eq_some.1 hk
      dsimp only
      apply wp_ite
      · exact fun _ => wp_pure (Nat.le_refl _)
      intro hm
      have hcount := Heap.unmarked_mark hkm hka (by simpa using hm)
      have hM : Collects (Mode.ending (ω := Event)) := ⟨fun _ => trivial, trivial, fun _ => trivial⟩
      apply wp_bind
      apply wp_modify
      apply wp_mono (gcPushMark_spec (E := fun _ _ => True) hM) _ fun _ _ h => h
      intro ok u hu
      unfold State.toVisit
      cases ok with
      | true =>
        simp only [if_true] at hu
        rw [hu]
        simp only [List.length_cons]
        omega
      | false =>
        simp only [Bool.false_eq_true, if_false] at hu
        rw [hu.1]
        dsimp only
        omega
  · exact wp_pure (Nat.le_refl _)

theorem gcVisitAll_ends (vs : List Val) :
    wp Mode.ending (gcVisitAll c vs) s (fun _ t => t.toVisit ≤ s.toVisit) (fun _ _ => True) := by
  induction vs generalizing s with
  | nil => exact wp_pure (Nat.le_refl _)
  | cons v vs ih =>
    apply wp_seq gcVisit_ends
    intro ok t ht
    apply wp_ite
    · exact fun _ => wp_mono ih (fun _ u hu => Nat.le_trans hu ht) fun _ _ h => h
    · exact fun _ => wp_pure ht

theorem gcDrainWorklist_ends (n : Nat) (h : s.toVisit < n) :
    wp Mode.ending (gcDrainWorklist c n) s (fun _ _ => True) (fun _ _ => True) := by
  induction n generalizing s with
  | zero => omega
  | succ n ih =>
    apply wp_bind (wp_gets _)
    cases hw : s.gcMarklist with
    | nil => exact wp_pure trivial
    | cons o rest =>
      apply wp_bind
      apply wp_modify
      apply wp_seq (readObj_wp False.elim)
      rintro obj t ⟨rfl, -⟩
      apply wp_seq (gcVisitAll_ends _)
      intro ok u hu
      apply wp_ite _ fun _ => wp_pure trivial
      intro _
      apply ih
      unfold State.toVisit at h hu ⊢
      rw [hw, List.length_cons] at h
      simp only at hu
      omega

/-- In every state a collection ends. -/
theorem mlGcCollect_ends : Gives (mlGcCollect c) (fun _ => True) := by
  intro s _
  apply wp_bind
  apply wp_modify
  apply wp_bind (wp_gets _)
  apply wp_bind (wp_gets _)
  apply wp_seq (gcVisitAll_ends _)
  intro rootsOk t ht
  have hload : t.toVisit < s.heap.cells.length + 1 := by
    have hle := s.heap.unmarked_le
    unfold State.toVisit at ht ⊢
    simp only [List.length_nil] at ht
    omega
  have hend : ∀ ok : Bool, Gives (if ok = true then do
      modify sweep
      modify fun s => { s with gcThreshold := nextThreshold s.gcLiveObjects, gcKept := some s.heap.cells.length }
      noteHeap
      notePending
    else do
      modify gcClearAllMarks
      modify fun s => { s with gcMarklist := [] } : ML Unit) (fun _ => True) := by
    intro ok
    apply Gives.ite
    · intro _
      apply Gives.modify.seq
      intro _
      apply Gives.modify.seq
      intro _
      apply (Gives.of_wp fun _ => noteHeap_wp (E := fun _ _ => True) trivial).seq
      exact fun _ => .look fun _ => .ite (fun _ _ _ => wp_emit fun _ => ⟨trivial, trivial⟩) fun _ => .pure trivial
    · exact fun _ => Gives.modify.seq fun _ => .modify
  apply wp_ite
  · exact fun _ => wp_seq (gcDrainWorklist_ends _ hload) fun ok u _ => hend ok u trivial
  · exact fun _ => wp_bind (wp_pure (hend false t trivial))

theorem rawAllocOrFail_gives {size : Nat} : Gives (rawAllocOrFail c size) (fun _ => True) :=
  .of_wp fun _ => rawAllocOrFail_wp

theorem mlGcProtect_gives {v : Val} : Gives (mlGcProtect c v) (fun _ => True) := .of_wp fun _ => mlGcProtect_wp

theorem gcAlloc_gives {size : Nat} {o : Obj} : Gives (gcAlloc c size o) (fun _ => True) := by
  have hcollect : Gives (maybeCollect c) (fun _ => True) :=
    .look fun _ => .ite (fun _ => mlGcCollect_ends) fun _ => .pure trivial
  apply hcollect.seq
  intro _
  exact rawAllocOrFail_gives.seq fun _ => .of_wp fun _ => linkObject_wp (E := fun _ _ => True) trivial

theorem mlSymIntern_gives {name : Bytes} : Gives (mlSymIntern c name) (fun _ => True) :=
  .of_wp fun _ => mlSymIntern_adds

theorem asObj_gives {v : Val} : Gives (asObj v) (fun _ => True) := by
  cases v with
  | obj a => exact .of_wp fun _ => readObj_wp (E := fun _ _ => True) False.elim
  | _ => exact .stuck

theorem cdr_gives {v : Val} : Gives (cdr v) (fun _ => True) :=
  .of_wp fun _ => cdr_wp (E := fun _ _ => True) False.elim

theorem setCdr_gives {v d : Val} : Gives (setCdr v d) (fun _ => True) := by
  apply asObj_gives.seq
  intro o
  cases o with
  | pair a _ => exact .of_wp fun _ => writeObj_wp (E := fun _ _ => True) False.elim fun _ _ => trivial
  | _ => exact .stuck

end Collections

/-! ## Positions -/

namespace Reader

/-- `r'` is further on in the input of `r`, or at the same place. -/
structure Ahead (r r' : Reader) : Prop where
  rest : r'.rest <:+ r.rest
  pos : r'.pos + r'.rest.length = r.pos + r.rest.length

/-- Past at least one byte. -/
structure Beyond (r r' : Reader) : Prop extends Ahead r r' where
  less : r'.rest.length < r.rest.length

variable {r r' r'' : Reader} {b : UInt8}

theorem Ahead.refl (r : Reader) : r.Ahead r := ⟨List.suffix_refl _, rfl⟩

theorem Ahead.trans (h : r.Ahead r') (h' : r'.Ahead r'') : r.Ahead r'' := ⟨h'.rest.trans h.rest, h'.pos.trans h.pos⟩

theorem Past.ahead (h : r.Past r') : r.Ahead r' := by
  refine ⟨?_, h.pos⟩
  obtain ⟨bs, hrest, -⟩ := h
  exact ⟨bs, hrest.symm⟩

theorem Ahead.length_le (h : r.Ahead r') : r'.rest.length ≤ r.rest.length := h.rest.length_le

theorem Beyond.ahead (h : r.Beyond r') (h' : r'.Ahead r'') : r.Beyond r'' :=
  ⟨h.toAhead.trans h', Nat.lt_of_le_of_lt h'.length_le h.less⟩

theorem Ahead.beyond (h : r.Ahead r') (h' : r'.Beyond r'') : r.Beyond r'' :=
  ⟨h.trans h'.toAhead, Nat.lt_of_lt_of_le h'.less h.length_le⟩

theorem ahead_advance (r : Reader) : r.Ahead r.advance := (past_advance r).ahead

theorem ahead_skip (r : Reader) : r.Ahead (skipWsAndComments r) := (past_skip r).ahead

theorem beyond_advance (h : r.peek = some b) : r.Beyond r.advance := by
  refine ⟨ahead_advance r, ?_⟩
  obtain ⟨bs, hrest⟩ := rest_of_peek h
  rw [rest_advance hrest, hrest]
  exact Nat.lt_succ_self _

theorem ahead_advanceWhile {p : UInt8 → Bool} (r : Reader) : r.Ahead (advanceWhile p r.rest r) := by
  rw [advanceWhile_eat]
  exact (past_eat (List.takeWhile_append_dropWhile).symm).ahead

/-- Where the first byte is one of those. -/
theorem beyond_advanceWhile {p : UInt8 → Bool} (h : r.peek = some b) (hp : p b = true) :
    r.Beyond (advanceWhile p r.rest r) := by
  refine ⟨ahead_advanceWhile r, ?_⟩
  obtain ⟨bs, hrest⟩ := rest_of_peek h
  rw [rest_advanceWhile, hrest, List.dropWhile_cons_of_pos hp]
  exact Nat.lt_succ_of_le (List.dropWhile_suffix _).length_le

theorem Beyond.pos_lt (h : r.Beyond r') : r.pos < r'.pos := by
  have := h.pos
  have := h.less
  omega

theorem Ahead.pos_le (h : r.Ahead r') : r'.pos ≤ r.pos + r.rest.length := by
  have := h.pos
  omega

end Reader

/-! ## Tokens -/

section Tokens
variable {c : Config} {r : Reader} {b : UInt8} {l k : Nat}

theorem readEscape_gives : Gives (readEscape l k r) (fun x => r.Ahead x.2) := by
  unfold readEscape
  cases r.peek with
  | none => exact .raise
  | some esc =>
    have hnext := ahead_advance r
    -- six escapes that name one byte, and the hex escape
    iterate 6 refine .ite (fun _ => .pure hnext) fun _ => ?_
    refine .ite (fun _ => ?_) fun _ => .raise
    dsimp only
    split
    · exact .pure ((hnext.trans (ahead_advance _)).trans (ahead_advance _))
    · exact .raise

theorem readStringLoop_gives (n : Nat) (r : Reader) (buf : Bytes) (cap : Nat) (hn : r.rest.length < n) :
    Gives (readStringLoop c l k n r buf cap) (fun x => r.Ahead x.2) := by
  induction n generalizing r buf cap with
  | zero => omega
  | succ n ih =>
    unfold readStringLoop
    cases hpeek : r.peek with
    | none => exact .raise
    | some b =>
      have hnext := beyond_advance hpeek
      apply Gives.ite
      · exact fun _ => .pure hnext.toAhead
      intro _
      have hpush : ∀ x : UInt8 × Reader, r.advance.Ahead x.2 → Gives (do
          let cap ← if buf.length = cap then do
              rawAllocOrFail c (cap * 2)
              pure (cap * 2)
            else pure cap
          readStringLoop c l k n x.2 (buf ++ [x.1]) cap) (fun x => r.Ahead x.2) := by
        intro x hx
        have hless := (hnext.ahead hx).less
        have hloop : ∀ cap, Gives (readStringLoop c l k n x.2 (buf ++ [x.1]) cap) (fun x => r.Ahead x.2) :=
          fun cap => (ih x.2 _ cap (by omega)).mono fun _ => (hnext.toAhead.trans hx).trans
        exact .ite (fun _ => rawAllocOrFail_gives.seq fun _ => hloop _) fun _ => hloop _
      have hplain : Gives (pure (b, r.advance) : ML (UInt8 × Reader)) (fun x => r.advance.Ahead x.2) := .pure (.refl _)
      exact .ite (fun _ => readEscape_gives.bind hpush) fun _ => hplain.bind hpush

theorem readString_gives (h : r.peek = some b) : Gives (readString c r) (fun x => r.Beyond x.2) := by
  apply rawAllocOrFail_gives.seq
  intro _
  apply (readStringLoop_gives _ _ _ _ (Nat.lt_succ_self _)).bind
  intro x hx
  exact gcAlloc_gives.seq fun _ => .pure ((beyond_advance h).ahead hx)

theorem readHash_gives (h : r.peek = some b) : Gives (readHash r) (fun x => r.Beyond x.2) := by
  have hnext := (beyond_advance h).ahead (ahead_advance _)
  exact .ite (fun _ => .pure hnext) fun _ => .ite (fun _ => .pure hnext) fun _ => .raise

/-- Where there is a digit, the reader is past it. -/
theorem readDigits_ahead (bs : Bytes) (r : Reader) (value : Int) (any : Bool) (h : r.rest = bs) :
    r.Ahead (readDigits bs r value any).2.2 ∧
    ((readDigits bs r value any).2.1 = true → any = true ∨ r.Beyond (readDigits bs r value any).2.2) := by
  induction bs generalizing r value any with
  | nil => exact ⟨.refl r, .inl⟩
  | cons b bs ih =>
    have hnext := beyond_advance (peek_of_rest h)
    have hrest := rest_advance h
    unfold readDigits
    split
    · dsimp only
      split
      · have hend : r.Beyond (advanceWhile isDigit bs r.advance) := hnext.ahead (hrest ▸ ahead_advanceWhile r.advance)
        exact ⟨hend.toAhead, fun _ => .inr hend⟩
      · rename_i added _
        have hend := hnext.ahead (ih r.advance added true hrest).1
        exact ⟨hend.toAhead, fun _ => .inr hend⟩
    · exact ⟨.refl r, .inl⟩

theorem readNumber_gives {sign : Int} : Gives (readNumber sign r) (fun x => r.Beyond x.2) := by
  unfold readNumber
  have hdigits := readDigits_ahead r.rest r 0 false rfl
  dsimp only
  split
  · exact .raise
  · rename_i value any r' heq
    rw [heq] at hdigits
    apply Gives.ite (fun _ => .raise)
    intro hany
    apply Gives.ite (fun _ => .raise)
    intro _
    have hnext : r.Beyond r' := (hdigits.2 (by simpa using hany)).resolve_left nofun
    have hfix : ∀ x : Int, Gives (if x < mFixMin || x > mFixMax then
        (raise r.line r.column (ascii "integer literal exceeds 60-bit fixnum range") .errOverflow : ML (Val × Reader))
      else do
        let v ← makeFix x
        pure (v, r')) (fun x => r.Beyond x.2) := by
      intro x
      refine .ite (fun _ => .raise) fun _ => ?_
      intro s _
      exact wp_bind (makeFix_wp trivial (wp_pure hnext))
    refine .ite (fun _ => ?_) fun _ => hfix _
    intro s _
    exact wp_bind (int64Op_wp trivial False.elim (hfix _ s trivial))

theorem readSymbol_gives (h : r.peek = some b) (hb : isTerminator (some b) = false) :
    Gives (readSymbol c r) (fun x => r.Beyond x.2) :=
  mlSymIntern_gives.seq fun _ => .pure (beyond_advanceWhile h (by rw [hb]; rfl))

end Tokens

/-! ## Forms -/

/-- What a read returns: `MV_EOF` where only layout is left, or something past a byte at least. -/
def Progress (r : Reader) (x : Val × Reader) : Prop :=
  x.1 = mvEof ∧ x.2 = skipWsAndComments r ∧ x.2.rest = [] ∨ r.Beyond x.2

section Forms
variable {c : Config} {r r' : Reader} {x : Val × Reader} {b : UInt8}

theorem Progress.ahead (h : Progress r x) : r.Ahead x.2 := by
  rcases h with ⟨-, hskip, -⟩ | h
  · rw [hskip]
    exact ahead_skip r
  · exact h.toAhead

/-- Where there is a form to read, something is read. -/
theorem Progress.beyond (h : Progress (skipWsAndComments r) x) (hpeek : (skipWsAndComments r).peek = some b) :
    (skipWsAndComments r).Beyond x.2 := by
  rcases h with ⟨-, hskip, hrest⟩ | h
  · rw [hskip, skip_skip] at hrest
    rw [peek_eq_none.2 hrest] at hpeek
    cases hpeek
  · exact h

section Nested
variable {rf : Reader → ML (Val × Reader)} {k : Nat} (hrf : ∀ r, r.rest.length < k → Gives (rf r) (Progress r))
include hrf

theorem readListLoop_gives {sp : Nat} {head : Val} (n : Nat) (tail : Val) (r : Reader) (hn : r.rest.length < n)
    (hk : r.rest.length < k) : Gives (readListLoop c rf sp head n tail r) (fun r' => r.Ahead r') := by
  induction n generalizing tail r with
  | zero => omega
  | succ n ih =>
    unfold readListLoop
    dsimp only
    have hskip := ahead_skip r
    have hless := hskip.length_le
    cases hpeek : (skipWsAndComments r).peek with
    | none => exact .onErr .raise
    | some b =>
      have hnext := hskip.beyond (beyond_advance hpeek)
      apply Gives.ite
      · exact fun _ => .pure hnext.toAhead
      intro _
      apply Gives.ite
      · intro _
        apply Gives.ite
        · exact fun _ => .onErr .raise
        intro _
        have hlt := hnext.less
        apply (hrf _ (by omega)).onErr.bind
        rintro ⟨cdrForm, r'⟩ hx
        apply setCdr_gives.seq
        intro _
        apply Gives.ite
        · exact fun _ => .onErr .raise
        · exact fun _ => .pure (((hnext.toAhead.trans hx.ahead).trans (ahead_skip _)).trans (ahead_advance _))
      · intro _
        apply (hrf _ (by omega)).onErr.bind
        rintro ⟨elem, r'⟩ hx
        have hx' := hskip.beyond (hx.beyond hpeek)
        have hlt : r'.rest.length < r.rest.length := hx'.less
        apply mlGcProtect_gives.onErr.seq
        intro _
        apply gcAlloc_gives.andThen.onErr.seq
        intro cell
        exact setCdr_gives.seq fun _ => (ih cell r' (by omega) (by omega)).mono fun _ => hx'.toAhead.trans

theorem readList_gives (hk : r.rest.length < k) : Gives (readList c rf r) (fun x => r.Ahead x.2) := by
  apply Gives.ite
  · exact fun _ => .raise
  intro _
  have hskip := ahead_skip { r with depth := r.depth + 1 }
  have hstart : r.Ahead (skipWsAndComments { r with depth := r.depth + 1 }) := ⟨hskip.rest, hskip.pos⟩
  have hend : ∀ {r' : Reader}, (skipWsAndComments { r with depth := r.depth + 1 }).Ahead r' →
      r.Ahead { r' with depth := r'.depth - 1 } := by
    intro r' h
    have hr' := hstart.trans h
    exact ⟨hr'.rest, hr'.pos⟩
  apply Gives.ite
  · exact fun _ => .pure (hend (ahead_advance _))
  intro _
  apply Gives.look
  intro sp
  apply gcAlloc_gives.seq
  intro head
  apply mlGcProtect_gives.seq
  intro _
  have hless := hstart.length_le
  apply (readListLoop_gives hrf _ head _ (Nat.lt_succ_self _) (by omega)).bind
  intro r' hr'
  exact cdr_gives.seq fun _ => Gives.modify.seq fun _ => .pure (hend hr')

theorem readQuote_gives (hpeek : r.peek = some b) (hk : r.rest.length < k + 1) :
    Gives (readQuote c rf r) (fun x => r.Beyond x.2) := by
  have hnext := beyond_advance hpeek
  have hless := hnext.less
  apply (hrf r.advance (by omega)).bind
  rintro ⟨form, r'⟩ hx
  apply Gives.ite
  · exact fun _ => .raise
  intro _
  apply Gives.look
  intro sp
  apply mlGcProtect_gives.seq
  intro _
  apply gcAlloc_gives.onErr.seq
  intro inner
  apply Gives.modify.seq
  intro _
  apply mlGcProtect_gives.seq
  intro _
  exact gcAlloc_gives.andThen.seq fun _ => .pure (hnext.ahead hx.ahead)

end Nested

theorem readForm_gives (n : Nat) (r : Reader) (hn : r.rest.length < n) : Gives (readForm c n r) (Progress r) := by
  induction n generalizing r with
  | zero => omega
  | succ n ih =>
    unfold readForm
    dsimp only
    have hskip := ahead_skip r
    have hless := hskip.length_le
    cases hpeek : (skipWsAndComments r).peek with
    | none => exact .pure (.inl ⟨rfl, rfl, peek_eq_none.1 hpeek⟩)
    | some b =>
      have hstart : Starts (skipWsAndComments r).rest := starts_skip r
      have hnext := beyond_advance hpeek
      have hlt := hnext.less
      have hform : ∀ {m : ML (Val × Reader)}, Gives m (fun x => (skipWsAndComments r).Beyond x.2) →
          Gives m (Progress r) :=
        fun h => h.mono fun x hx => .inr (hskip.beyond hx)
      apply Gives.ite
      · exact fun _ => hform ((readList_gives ih (by omega)).mono fun x hx => hnext.ahead hx)
      intro hopen
      apply Gives.ite
      · exact fun _ => .raise
      intro hclose
      apply Gives.ite
      · exact fun _ => hform (readQuote_gives ih hpeek (by omega))
      intro hquote
      apply Gives.ite
      · exact fun _ => hform (readString_gives hpeek)
      intro hstring
      apply Gives.ite
      · exact fun _ => hform (readHash_gives hpeek)
      intro _
      apply Gives.ite
      · exact fun _ => hform readNumber_gives
      intro _
      have hsymbol : Gives (readSymbol c (skipWsAndComments r)) (Progress r) := by
        obtain ⟨hws, hcomment⟩ := hstart b hpeek
        exact hform (readSymbol_gives hpeek (by simp [isTerminator, hws, hopen, hclose, hcomment, hstring, hquote]))
      apply Gives.ite _ fun _ => hsymbol
      intro _
      apply Gives.ite _ fun _ => hsymbol
      exact fun _ => hform (readNumber_gives.mono fun x hx => hnext.ahead hx.toAhead)

theorem mlRead_gives (c : Config) (r : Reader) : Gives (mlRead c r) (Progress r) :=
  readForm_gives _ r (Nat.lt_succ_self _)

end Forms

/-! ## What is read -/

/-- `w` is `v`, or is found in an object that `v` leads to. -/
inductive Heap.Occurs (h : Heap) (w : Val) : Val → Prop
  | here : h.Occurs w w
  | inside {v x : Val} {o : Obj} : h.Has v o → x ∈ o.refs → h.Occurs w x → h.Occurs w v

/-- What occurs in a datum is a datum. -/
theorem Heap.Shows.occurs {h : Heap} {names : List Bytes} {K : Nat → Prop} {d : Datum} {v w : Val} (hw : h.Occurs w v)
    (hv : h.Shows names K d v) : ∃ d', h.Shows names K d' w := by
  induction hw generalizing d with
  | here => exact ⟨d, hv⟩
  | @inside v x o ho hx _ ih =>
    obtain ⟨a, rfl, ho⟩ := ho
    rcases (Heap.shows_obj hv).2 with ⟨bytes, -, ho'⟩ | ⟨y, z, p, q, -, ho', hp, hq⟩
    · rw [ho] at ho'
      cases ho'
      cases hx
    · rw [ho] at ho'
      cases ho'
      simp only [Obj.refs, List.mem_cons, List.not_mem_nil, or_false] at hx
      rcases hx with rfl | rfl
      · exact ih hp
      · exact ih hq

theorem Heap.Shows.ne_undef {h : Heap} {names : List Bytes} {K : Nat → Prop} {d : Datum} {v : Val}
    (hv : h.Shows names K d v) :
    v ≠ mvUndef := by
  rintro rfl
  rcases Heap.shows_imm hv with ⟨-, hi⟩ | ⟨-, hi⟩ | ⟨-, hi⟩ <;> cases hi

/-! ## One read after another -/

/-- So many forms are read, one after another, each in whatever state the interpreter is in
by then; the last one ends at `r'`. -/
inductive Forms (c : Config) : Reader → Nat → Reader → Prop
  | none {r : Reader} : Forms c r 0 r
  | next {r r₁ r' : Reader} {s : State} {v : Val} {k : Nat} : (mlRead c r s).res = .ok (v, r₁) →
      v ≠ mvEof → Forms c r₁ k r' →
      Forms c r (k + 1) r'

section Reads
variable {c : Config} {r r' : Reader} {s : State} {v : Val} {k : Nat}

theorem mlRead_ends : (mlRead c r s).res ≠ .error .timeout := by
  intro hres
  have hk := (mlRead_gives c r s trivial fun _ _ => id).2
  rw [hres] at hk
  exact hk trivial

theorem mlRead_moves (hres : (mlRead c r s).res = .ok (v, r')) : Progress r (v, r') := by
  have hk := (mlRead_gives c r s trivial fun _ _ => id).2
  rw [hres] at hk
  exact hk

theorem Forms.length_le (h : Forms c r k r') : r'.rest.length + k ≤ r.rest.length := by
  induction h with
  | none => exact Nat.le_refl _
  | next hres hv _ ih =>
    rcases mlRead_moves hres with ⟨heof, -⟩ | hbeyond
    · exact absurd heof hv
    · have := hbeyond.less
      dsimp only at this
      omega

/-- The count of the turns does not matter once it exceeds the bytes that are left. -/
theorem readEvalLoop_turns (n turns turns' : Nat) (r : Reader) (last : Val) (saw : Bool) (s : State)
    (h : r.rest.length < turns)
    (h' : r.rest.length < turns') : readEvalLoop c n turns r last saw s = readEvalLoop c n turns' r last saw s := by
  induction turns generalizing turns' r last saw s with
  | zero => omega
  | succ turns ih =>
    obtain ⟨turns', rfl⟩ := Nat.exists_eq_add_of_lt (Nat.zero_lt_of_lt h')
    rw [Nat.zero_add] at h' ⊢
    unfold readEvalLoop
    apply bind_run_congr
    rintro ⟨form, r₁⟩ hres
    by_cases heof : form = mvEof
    · simp only [if_pos heof]
    · have hless : r₁.rest.length < r.rest.length := ((mlRead_moves hres).resolve_left fun hend => heof hend.1).less
      simp only [if_neg heof]
      apply bind_run_congr
      intro sp _
      apply bind_run_congr
      intro _ _
      apply bind_run_congr
      intro last _
      exact ih turns' r₁ last true _ (by omega) (by omega)

end Reads

/-- From any position a read ends. It returns `MV_EOF` where only layout is left, at the end of
the input; or a datum in which neither `MV_EOF` nor `MV_UNDEF` occurs, at a later position. So
one after another at most as many forms are read as there are bytes, and the count of the turns
of the read-eval loop decides nothing. -/
theorem mlRead_progress (c : Config) (r : Reader) :
    (∀ s : State, s.Ready c → ∀ v r', (mlRead c r s).res = .ok (v, r') →
      (v = mvEof ∧ Trailing r.rest ∧ r'.rest = [] ∧ r'.pos = r.pos + r.rest.length) ∨
      ((∀ w, (mlRead c r s).state.heap.Occurs w v → w ≠ mvEof ∧ w ≠ mvUndef) ∧ r.pos < r'.pos ∧
        r'.pos ≤ r.pos + r.rest.length)) ∧
    (∀ s, (mlRead c r s).res ≠ .error .timeout) ∧
    (∀ k r', Forms c r k r' → k ≤ r.rest.length) ∧
    ∀ n turns turns' last saw s, r.rest.length < turns → r.rest.length < turns' →
      readEvalLoop c n turns r last saw s = readEvalLoop c n turns' r last saw s := by
  refine ⟨?_, fun s => mlRead_ends, fun k r' h => ?_, fun n turns turns' last saw s => readEvalLoop_turns n
    turns turns' r last saw s⟩
  · intro s hs v r' hres
    have hmoves := mlRead_moves hres
    rcases mlRead_cases hs r with ⟨v', r₁, y, hres', hp, hy, -⟩ | ⟨e, hres', -⟩
    · rw [hres] at hres'
      cases hres'
      cases y with
      | none =>
        obtain ⟨rfl, hpeek⟩ := parseForm_none hp
        have hrest := peek_eq_none.1 hpeek
        have hpos := (ahead_skip r).pos
        rw [hrest, List.length_nil, Nat.add_zero] at hpos
        exact .inl ⟨hy, trailing_of_skip hpeek, hrest, hpos⟩
      | some d =>
        have hd : s.New (mlRead c r s).state d v := hy
        have hbeyond : r.Beyond r' := hmoves.resolve_left fun hend => hd.ne_eof hend.1
        refine .inr ⟨fun w hw => ?_, hbeyond.pos_lt, hbeyond.pos_le⟩
        obtain ⟨d', hd'⟩ := Heap.Shows.occurs hw hd
        exact ⟨hd'.ne_eof, hd'.ne_undef⟩
    · rw [hres] at hres'
      cases hres'
  · have := h.length_le
    omega

end Microlisp
