import Microlisp.Lib.Related
import Microlisp.Progress
/-!
# The reader in place

The reader again, over one `ml_reader` that moves as in the source, where `Reader.lean` hands
on a new one. Its runs leave a trace of the points that they come to, and otherwise end as
those of `ml_read` do.
-/
namespace Microlisp.InPlace

open Prog

/-- The interpreter and the reader that moves. -/
abbrev Moving := Prog (State × Reader) Status Reader

/-- A call that does not touch the reader. -/
def call {α : Type} (m : ML α) : Moving α := onFst m

def peek : Moving (Option UInt8) := gets fun s => s.2.peek

def peek2 : Moving (Option UInt8) := gets fun s => s.2.peek2

/-- The byte that is passed, if there is one. The new point is recorded. -/
def advance : Moving (Option UInt8) := do
  let b ← peek
  modify fun s => (s.1, s.2.advance)
  let r ← gets Prod.snd
  emit r
  pure b

/-- The line and the column. -/
def place : Moving (Nat × Nat) := gets fun s => (s.2.line, s.2.column)

/-- The bytes from the position on. -/
def rest : Moving Bytes := gets fun s => s.2.rest

/-- More turns than a loop has that takes a byte in each but the last. -/
def bound : Moving Nat := gets fun s => s.2.rest.length + 1

/-- `ml_set_error`, and the status. -/
def refuse {α : Type} (here : Nat × Nat) (message : Bytes) (e : Status) : Moving α :=
  call (raise here.1 here.2 message e)

/-- `while (p(peek(r))) advance(r)`. -/
def advanceWhileLoop (p : UInt8 → Bool) : Nat → Moving Unit
  | 0 => timeout
  | n + 1 => do
    match ← peek with
    | none => pure ()
    | some b =>
      if p b then
        let _ ← advance
        advanceWhileLoop p n
      else
        pure ()

def advanceWhile (p : UInt8 → Bool) : Moving Unit := do
  let n ← bound
  advanceWhileLoop p n

def skipLoop : Nat → Moving Unit
  | 0 => timeout
  | n + 1 => do
    match ← peek with
    | none => pure ()
    | some b =>
      if isWhitespace b then
        let _ ← advance
        skipLoop n
      else if b = ch ';' then
        advanceWhile fun b => b ≠ ch '\n'
        skipLoop n
      else
        pure ()

def skipWsAndComments : Moving Unit := do
  let n ← bound
  skipLoop n

/-! ## Tokens -/

/-- The reader is past the backslash. -/
def readEscape (start : Nat × Nat) : Moving UInt8 := do
  match ← advance with
  | none => refuse start (ascii "unterminated escape sequence in string") .errReadTruncated
  | some esc =>
    if esc = ch 'n' then pure (ch '\n')
    else if esc = ch 't' then pure (ch '\t')
    else if esc = ch 'r' then pure (ch '\r')
    else if esc = ch '0' then pure 0
    else if esc = ch '"' then pure (ch '"')
    else if esc = ch '\\' then pure (ch '\\')
    else if esc = ch 'x' then
      let hi ← advance
      let lo ← advance
      match hi.bind hexDigit, lo.bind hexDigit with
      | some h1, some h2 => pure ((h1 <<< 4) ||| h2)
      | _, _ => do
        let here ← place
        refuse here (ascii "malformed \\xHH escape: need two hex digits") .errReadSyntax
    else
      let here ← place
      refuse here (ascii "unknown string escape \\" ++ [esc]) .errReadSyntax

/-- A full scratch buffer doubles. -/
def growScratch (c : Config) (len cap : Nat) : ML Nat := do
  if len = cap then
    rawAllocOrFail c (cap * 2)
    pure (cap * 2)
  else
    pure cap

def readStringLoop (c : Config) (start : Nat × Nat) : Nat → Bytes → Nat → Moving Bytes
  | 0, _, _ => timeout
  | n + 1, buf, cap => do
    match ← peek with
    | none => refuse start (ascii "unterminated string literal") .errReadTruncated
    | some b =>
      let _ ← advance
      if b = ch '"' then
        pure buf
      else
        let b ← if b = ch '\\' then readEscape start else pure b
        let cap ← call (growScratch c buf.length cap)
        readStringLoop c start n (buf ++ [b]) cap

def readString (c : Config) : Moving Val := do
  let start ← place
  let _ ← advance
  call (rawAllocOrFail c 32)
  let n ← bound
  let buf ← readStringLoop c start n [] 32
  call (mlGcAllocString c buf)

def readHash : Moving Val := do
  let start ← place
  let _ ← advance
  let b ← advance
  let next ← peek
  if b = some (ch 't') && isTerminator next then pure mvTrue
  else if b = some (ch 'f') && isTerminator next then pure mvFalse
  else refuse start (ascii "unknown # form (only #t and #f are supported)") .errReadSyntax

/-- The digits, and whether there was one. -/
def readDigits : Nat → Int → Bool → Moving (Option Int × Bool)
  | 0, _, _ => timeout
  | n + 1, value, anyDigit => do
    match ← peek with
    | none => pure (some value, anyDigit)
    | some b =>
      if isDigit b then
        let _ ← advance
        let digit : Int := (b - ch '0').toNat
        match (int64Checked (value * 10)).bind fun multiplied => int64Checked (multiplied + digit) with
        | none =>
          advanceWhile isDigit
          pure (none, true)
        | some added => readDigits n added true
      else
        pure (some value, anyDigit)

/-- The fixnum of a number, if it has one. -/
def makeNumber (sign : Int) (start : Nat × Nat) (value : Int) : ML Val := do
  let value ← if sign < 0 then int64Op (-value) else pure value
  if value < mFixMin || value > mFixMax then
    raise start.1 start.2 (ascii "integer literal exceeds 60-bit fixnum range") .errOverflow
  else
    makeFix value

def readNumber (sign : Int) : Moving Val := do
  let start ← place
  let n ← bound
  match ← readDigits n 0 false with
  | (none, _) => refuse start (ascii "integer literal exceeds 60-bit fixnum range") .errOverflow
  | (some value, anyDigit) =>
    if !anyDigit then
      refuse start (ascii "expected digit after sign") .errReadSyntax
    else
      let next ← peek
      if !isTerminator next then
        let here ← place
        refuse here (ascii "integer literal not followed by a token terminator") .errReadSyntax
      else
        call (makeNumber sign start value)

def readSymbol (c : Config) : Moving Val := do
  let start ← rest
  advanceWhile fun b => !isTerminator (some b)
  let left ← rest
  call (mlSymIntern c (start.take (start.length - left.length)))

/-! ## Forms -/

/-- `ml_gc_restore` on the way out of a failure. -/
def restoring {α : Type} (sp : Nat) (m : Moving α) : Moving α := m.onErr fun s => (mlGcRestore sp s.1, s.2)

def setDepth (f : Nat → Nat) : Moving Unit := modify fun s => (s.1, { s.2 with depth := f s.2.depth })

section Nested
variable (c : Config) (readForm : Moving Val)

def readListLoop (sp : Nat) (head : Val) : Nat → Val → Moving Unit
  | 0, _ => timeout
  | n + 1, tail => do
    skipWsAndComments
    match ← peek with
    | none => do
      let here ← place
      restoring sp (refuse here (ascii "unterminated list") .errReadTruncated)
    | some b =>
      let next ← peek2
      if b = ch ')' then
        let _ ← advance
        pure ()
      else if b = ch '.' && next.isSome && isTerminator next then
        let _ ← advance
        if tail = head then
          let here ← place
          restoring sp (refuse here (ascii "dot at start of list") .errReadSyntax)
        else
          let cdrForm ← restoring sp readForm
          call (setCdr tail cdrForm)
          skipWsAndComments
          let close ← peek
          if close ≠ some (ch ')') then
            let here ← place
            restoring sp (refuse here (ascii "expected `)` after dotted-pair tail form") .errReadSyntax)
          else
            let _ ← advance
            pure ()
      else
        let elem ← restoring sp readForm
        restoring sp (call (mlGcProtect c elem))
        let cell ← restoring sp (call ((mlGcAllocPair c elem mvNil).andThen (mlGcUnprotect 1)))
        call (setCdr tail cell)
        readListLoop sp head n cell

def readList : Moving Val := do
  let depth ← gets fun s => s.2.depth
  if depth ≥ c.maxReadDepth then
    let here ← place
    refuse here (ascii "nesting depth exceeds limit of " ++ decimal c.maxReadDepth) .errReadDepth
  else
    setDepth (· + 1)
    skipWsAndComments
    let next ← peek
    if next = some (ch ')') then
      let _ ← advance
      setDepth (· - 1)
      pure mvNil
    else
      let sp ← call mlGcSavepoint
      let head ← call (mlGcAllocPair c mvNil mvNil)
      call (mlGcProtect c head)
      let n ← bound
      readListLoop c readForm sp head n head
      let out ← call (cdr head)
      call (modify (mlGcRestore sp))
      setDepth (· - 1)
      pure out

/-- `(quote form)`, from the form. -/
def makeQuote (form : Val) : ML Val := do
  let sp ← mlGcSavepoint
  mlGcProtect c form
  let inner ← (mlGcAllocPair c form mvNil).onErr (mlGcRestore sp)
  modify (mlGcUnprotect 1)
  mlGcProtect c inner
  (mlGcAllocPair c c.symQuote inner).andThen (mlGcRestore sp)

def readQuote : Moving Val := do
  let start ← place
  let _ ← advance
  let form ← readForm
  if form = mvEof then
    refuse start (ascii "lone `'` with no following datum") .errReadTruncated
  else
    call (makeQuote c form)

end Nested

def readForm (c : Config) : Nat → Moving Val
  | 0 => timeout
  | n + 1 => do
    skipWsAndComments
    match ← peek with
    | none => pure mvEof
    | some b =>
      let next ← peek2
      if b = ch '(' then
        let _ ← advance
        readList c (readForm c n)
      else if b = ch ')' then
        let here ← place
        refuse here (ascii "unexpected `)`") .errReadSyntax
      else if b = ch '\'' then readQuote c (readForm c n)
      else if b = ch '"' then readString c
      else if b = ch '#' then readHash
      else if isDigit b then readNumber 1
      else if b = ch '+' || b = ch '-' then
        if next.any isDigit then
          let _ ← advance
          readNumber (if b = ch '-' then -1 else 1)
        else readSymbol c
      else readSymbol c

def mlRead (c : Config) : Moving Val := do
  let n ← bound
  readForm c n

/-! ## Steps of the reader -/

/-- From `r` the reader alone moves, to `r'`. -/
def Steps {α : Type} (m : Moving α) (r : Reader) (a : α) (r' : Reader) : Prop :=
  ∀ s, ∃ points, m (s, r) = ⟨.ok a, (s, r'), points⟩

section Steps
variable {α β : Type} {m : Moving α} {f : α → Moving β} {r r' r'' : Reader} {a : α} {b : β} {p : UInt8 → Bool}

theorem Steps.pure : Steps (Pure.pure a : Moving α) r a r := fun _ => ⟨_, rfl⟩

theorem Steps.bind (h : Steps m r a r') (hf : Steps (f a) r' b r'') : Steps (m >>= f) r b r'' := by
  intro s
  obtain ⟨points, hm⟩ := h s
  obtain ⟨points', hf⟩ := hf s
  exact ⟨points ++ points', by rw [bind_of_ok (by rw [hm]), hm, hf]⟩

theorem peek_steps : Steps peek r r.peek r := fun _ => ⟨_, rfl⟩

theorem peek2_steps : Steps peek2 r r.peek2 r := fun _ => ⟨_, rfl⟩

theorem place_steps : Steps place r (r.line, r.column) r := fun _ => ⟨_, rfl⟩

theorem rest_steps : Steps rest r r.rest r := fun _ => ⟨_, rfl⟩

theorem bound_steps : Steps bound r (r.rest.length + 1) r := fun _ => ⟨_, rfl⟩

theorem advance_steps : Steps advance r r.peek r.advance := fun _ => ⟨_, rfl⟩

theorem setDepth_steps {g : Nat → Nat} : Steps (setDepth g) r () { r with depth := g r.depth } := fun _ => ⟨_, rfl⟩

theorem advanceWhileLoop_steps (n : Nat) (bs : Bytes) (r : Reader) (hr : r.rest = bs) (hn : bs.length < n) :
    Steps (advanceWhileLoop p n) r () (Microlisp.advanceWhile p bs r) := by
  induction bs generalizing n r with
  | nil =>
    obtain ⟨n, rfl⟩ := Nat.exists_eq_add_of_lt hn
    apply peek_steps.bind
    rw [Reader.peek_eq_none.2 hr]
    exact .pure
  | cons b bs ih =>
    obtain ⟨n, rfl⟩ := Nat.exists_eq_add_of_lt (Nat.zero_lt_of_lt hn)
    apply peek_steps.bind
    rw [Reader.peek_of_rest hr]
    simp only [Microlisp.advanceWhile]
    by_cases hp : p b = true
    · simp only [if_pos hp]
      exact advance_steps.bind (ih _ _ (Reader.rest_advance hr) (by simp only [List.length_cons] at hn; omega))
    · simp only [if_neg hp]
      exact .pure

theorem advanceWhile_steps : Steps (advanceWhile p) r () (Microlisp.advanceWhile p r.rest r) :=
  bound_steps.bind (advanceWhileLoop_steps _ _ _ rfl (Nat.lt_succ_self _))

theorem skipLoop_steps (n : Nat) (r : Reader) (hn : r.rest.length < n) :
    Steps (skipLoop n) r () (Microlisp.skipLoop n r) := by
  induction n generalizing r with
  | zero => omega
  | succ n ih =>
    apply peek_steps.bind
    simp only [Microlisp.skipLoop]
    cases hpeek : r.peek with
    | none => exact .pure
    | some b =>
      dsimp only
      by_cases hws : isWhitespace b = true
      · have hless := (Reader.beyond_advance hpeek).less
        simp only [if_pos hws]
        exact advance_steps.bind (ih _ (by omega))
      · simp only [if_neg hws]
        by_cases hc : b = ch ';'
        · have hless := (Reader.beyond_advanceWhile (p := fun b => b ≠ ch '\n') hpeek (by rw [hc]; decide)).less
          simp only [if_pos hc]
          exact advanceWhile_steps.bind (ih _ (by omega))
        · simp only [if_neg hc]
          exact .pure

theorem skip_steps : Steps skipWsAndComments r () (Microlisp.skipWsAndComments r) :=
  bound_steps.bind (skipLoop_steps _ _ (Nat.lt_succ_self _))

theorem readDigits_steps (n : Nat) (bs : Bytes) (r : Reader) (value : Int) (anyDigit : Bool) (hr : r.rest = bs)
    (hn : bs.length < n) :
    Steps (readDigits n value anyDigit) r
      ((Microlisp.readDigits bs r value anyDigit).1, (Microlisp.readDigits bs r value anyDigit).2.1)
      (Microlisp.readDigits bs r value anyDigit).2.2 := by
  induction bs generalizing n r value anyDigit with
  | nil =>
    obtain ⟨n, rfl⟩ := Nat.exists_eq_add_of_lt hn
    apply peek_steps.bind
    rw [Reader.peek_eq_none.2 hr]
    exact .pure
  | cons b bs ih =>
    obtain ⟨n, rfl⟩ := Nat.exists_eq_add_of_lt (Nat.zero_lt_of_lt hn)
    have hrest := Reader.rest_advance hr
    apply peek_steps.bind
    rw [Reader.peek_of_rest hr]
    simp only [Microlisp.readDigits]
    by_cases hd : isDigit b = true
    · simp only [if_pos hd]
      apply advance_steps.bind
      cases (int64Checked (value * 10)).bind fun multiplied =>
        int64Checked (multiplied + ((b - ch '0').toNat : Int)) with
      | none => exact advanceWhile_steps.bind (hrest ▸ .pure)
      | some added => exact ih _ _ _ _ hrest (by simp only [List.length_cons] at hn; omega)
    · simp only [if_neg hd]
      exact .pure

end Steps

/-! ## The two readers -/

/-- From `r`, `m` ends as `m'` does, in the same state, and what `m'` returns is `out` of what
`m` returns and of the reader then. -/
def Follows {α β : Type} (out : α → Reader → β) (m : Moving α) (m' : ML β) (r : Reader) : Prop :=
  ∀ s, RelatedAt (fun _ => False) (fun a b u t => b = out a u.2 ∧ t = u.1) (fun u t => t = u.1) m m' (s, r) s

/-- A value, with the reader past it. -/
abbrev Returns {α : Type} (m : Moving α) (m' : ML (α × Reader)) (r : Reader) : Prop := Follows Prod.mk m m' r

namespace Follows

variable {α β γ δ : Type} {out : α → Reader → β} {out' : γ → Reader → δ} {m n : Moving α} {m' n' : ML β}
    {f : α → Moving γ}
  {f' : β → ML δ} {r r' : Reader} {a : α}

theorem pure (a : α) : Follows out (Pure.pure a) (Pure.pure (out a r)) r := fun _ => relatedAt_pure ⟨rfl, rfl⟩

theorem timeout : Follows out (Prog.timeout : Moving α) (Prog.timeout : ML β) r := fun _ => relatedAt_timeout

theorem refuse {here : Nat × Nat} {message : Bytes} {e : Status} :
    Follows out (refuse here message e) (raise here.1 here.2 message e : ML β) r :=
  fun _ => .inr ⟨rfl, fun _ _ => rfl⟩

theorem bind (h : Follows out m m' r) (hf : ∀ a r', Follows out' (f a) (f' (out a r')) r') :
    Follows out' (m >>= f) (m' >>= f') r := by
  intro s
  apply (h s).bind
  rintro a _ ⟨_, r'⟩ t ⟨rfl, rfl⟩
  exact hf a r' t

/-- A step of the reader. -/
theorem step {m' : ML δ} (h : Steps m r a r') (hf : Follows out' (f a) m' r') : Follows out' (m >>= f) m' r := by
  intro s
  obtain ⟨points, hm⟩ := h s
  have hfs := hf s
  unfold RelatedAt at hfs ⊢
  rw [bind_of_ok (by rw [hm]), hm]
  exact hfs

/-- A call on both sides. -/
theorem call {m : ML α} {f' : α → ML δ} (hf : ∀ a, Follows out' (f a) (f' a) r) :
    Follows out' (InPlace.call m >>= f) (m >>= f') r := by
  intro s
  have hcall : RelatedAt (fun _ => False) (fun a b (u : State × Reader) t => b = a ∧ u = (t, r)) (fun u t => t = u.1)
      (InPlace.call m) m (s, r) s := relatedAt_onFst (fun _ _ => ⟨rfl, rfl⟩) fun _ => rfl
  apply hcall.bind
  rintro _ b _ t ⟨rfl, rfl⟩
  exact hf b t

/-- A call that is cleaned up after when it fails. -/
theorem callRestoring {m : ML α} {sp : Nat} {f' : α → ML δ} (hf : ∀ a, Follows out' (f a) (f' a) r) :
    Follows out' (InPlace.restoring sp (InPlace.call m) >>= f) (m.onErr (mlGcRestore sp) >>= f') r := by
  have hcall : InPlace.restoring sp (InPlace.call m) = InPlace.call (m.onErr (mlGcRestore sp)) := by
    funext s
    unfold InPlace.restoring InPlace.call onFst Prog.onErr Prog.onError
    rcases (m s.1).res with (_ | _ | _) | _ <;> rfl
  rw [hcall]
  exact call hf

/-- A call at the end. -/
theorem last {m : ML α} : Follows out (InPlace.call m) (m >>= fun a => Pure.pure (out a r)) r := by
  have h : Follows out (InPlace.call m >>= Pure.pure) (m >>= fun a => Pure.pure (out a r)) r := call fun a => pure a
  rwa [bind_pure] at h

theorem ite {b : Prop} [Decidable b] (h : b → Follows out m m' r) (h' : ¬ b → Follows out n n' r) :
    Follows out (if b then m else n) (if b then m' else n') r :=
  fun s => RelatedAt.ite (fun hb => h hb s) fun hb => h' hb s

theorem restoring {sp : Nat} (h : Follows out m m' r) : Follows out (restoring sp m) (m'.onErr (mlGcRestore sp)) r :=
  fun s => (h s).onErr fun _ _ ht => by rw [ht]

end Follows

section Tokens
variable {c : Config} {r : Reader} {l k : Nat}

theorem growScratch_bind {α : Type} {len cap : Nat} {f : Nat → ML α} : (growScratch c len cap >>= f) = (do
    let cap ← if len = cap then do
        rawAllocOrFail c (cap * 2)
        pure (cap * 2)
      else
        pure cap
    f cap : ML α) := by
  unfold growScratch
  by_cases h : len = cap
  · simp only [if_pos h, bind_assoc]
  · simp only [if_neg h]

theorem readEscape_follows : Returns (readEscape (l, k)) (Microlisp.readEscape l k r) r := by
  apply Follows.step advance_steps
  unfold Microlisp.readEscape
  cases r.peek with
  | none => exact .refuse
  | some esc =>
    -- six escapes that name one byte, and the hex escape
    iterate 6 refine .ite (fun _ => .pure _) fun _ => ?_
    apply Follows.ite
    · intro _
      apply Follows.step advance_steps
      apply Follows.step advance_steps
      dsimp only
      cases r.advance.peek.bind hexDigit with
      | none => exact .step place_steps .refuse
      | some h1 => cases r.advance.advance.peek.bind hexDigit with
        | none => exact .step place_steps .refuse
        | some h2 => exact .pure _
    · exact fun _ => .step place_steps .refuse

theorem readStringLoop_follows (n : Nat) (r : Reader) (buf : Bytes) (cap : Nat) :
    Returns (readStringLoop c (l, k) n buf cap) (Microlisp.readStringLoop c l k n r buf cap) r := by
  induction n generalizing r buf cap with
  | zero => exact .timeout
  | succ n ih =>
    apply Follows.step peek_steps
    unfold Microlisp.readStringLoop
    cases hpeek : r.peek with
    | none => exact .refuse
    | some b =>
      apply Follows.step advance_steps
      apply Follows.ite
      · exact fun _ => .pure _
      intro _
      have hpush : ∀ (b : UInt8) (r : Reader), Returns (do
          let cap ← call (growScratch c buf.length cap)
          readStringLoop c (l, k) n (buf ++ [b]) cap) (do
          let cap ← growScratch c buf.length cap
          Microlisp.readStringLoop c l k n r (buf ++ [b]) cap) r :=
        fun b r => .call fun cap => ih r _ cap
      simp only [growScratch_bind] at hpush
      have hplain : Returns (pure b : Moving UInt8) (pure (b, r.advance)) r.advance := .pure _
      apply Follows.ite
      · exact fun _ => readEscape_follows.bind hpush
      · exact fun _ => hplain.bind hpush

theorem readString_follows : Returns (readString c) (Microlisp.readString c r) r := by
  apply Follows.step place_steps
  apply Follows.step advance_steps
  apply Follows.call
  intro _
  apply Follows.step bound_steps
  apply (readStringLoop_follows _ _ _ _).bind
  exact fun _ _ => .last

theorem readHash_follows : Returns readHash (Microlisp.readHash r) r := by
  apply Follows.step place_steps
  apply Follows.step advance_steps
  apply Follows.step advance_steps
  apply Follows.step peek_steps
  exact .ite (fun _ => .pure _) fun _ => .ite (fun _ => .pure _) fun _ => .refuse

theorem raise_bind {α β : Type} {e : Status} {message : Bytes} {f : α → ML β} :
    (raise l k message e >>= f) = raise l k message e := by
  unfold raise
  rw [bind_assoc]
  rfl

theorem makeNumber_bind {sign value : Int} : (makeNumber sign (l, k) value >>= fun v => pure (v, r)) = (do
    let value ← if sign < 0 then int64Op (-value) else pure value
    if value < mFixMin || value > mFixMax then
      raise l k (ascii "integer literal exceeds 60-bit fixnum range") .errOverflow
    else
      let v ← makeFix value
      pure (v, r) : ML (Val × Reader)) := by
  have hfix : ∀ value : Int, ((if value < mFixMin || value > mFixMax then
      raise l k (ascii "integer literal exceeds 60-bit fixnum range") .errOverflow
    else makeFix value : ML Val) >>= fun v => pure (v, r)) = (if value < mFixMin || value > mFixMax then
      raise l k (ascii "integer literal exceeds 60-bit fixnum range") .errOverflow
    else do
      let v ← makeFix value
      pure (v, r)) := by
    intro value
    by_cases h : (value < mFixMin || value > mFixMax) = true
    · simp only [if_pos h, raise_bind]
    · simp only [if_neg h]
  unfold makeNumber
  by_cases h : sign < 0
  · simp only [if_pos h, bind_assoc, hfix]
  · simp only [if_neg h, pure_bind, hfix]

theorem readNumber_follows {sign : Int} : Returns (readNumber sign) (Microlisp.readNumber sign r) r := by
  apply Follows.step place_steps
  apply Follows.step bound_steps
  apply Follows.step (readDigits_steps _ _ _ _ _ rfl (Nat.lt_succ_self _))
  unfold Microlisp.readNumber
  dsimp only
  generalize Microlisp.readDigits r.rest r 0 false = digits
  obtain ⟨value, anyDigit, r'⟩ := digits
  cases value with
  | none => exact .refuse
  | some value =>
    apply Follows.ite
    · exact fun _ => .refuse
    intro _
    apply Follows.step peek_steps
    apply Follows.ite
    · exact fun _ => .step place_steps .refuse
    intro _
    rw [← makeNumber_bind]
    exact .last

theorem symbolBytes_eq {bs : Bytes} :
    bs.take (bs.length - (bs.dropWhile fun b => !isTerminator (some b)).length) = symbolBytes bs := by
  have hsplit := List.takeWhile_append_dropWhile (p := fun b => !isTerminator (some b)) (l := bs)
  have hlen := congrArg List.length hsplit
  rw [List.length_append] at hlen
  conv_lhs => rw [← hlen, Nat.add_sub_cancel]
  exact List.prefix_iff_eq_take.1 (List.takeWhile_prefix _) |>.symm

theorem readSymbol_follows : Returns (readSymbol c) (Microlisp.readSymbol c r) r := by
  apply Follows.step rest_steps
  apply Follows.step advanceWhile_steps
  apply Follows.step rest_steps
  rw [rest_advanceWhile, symbolBytes_eq]
  exact .last

end Tokens

section Nested
variable {c : Config} {form : Moving Val} {form' : Reader → ML (Val × Reader)} {r : Reader} {sp : Nat} {head : Val}

/-- The reader that is left is what the loop of `Reader.lean` returns. -/
abbrev Leaves (m : Moving Unit) (m' : ML Reader) (r : Reader) : Prop := Follows (fun _ r => r) m m' r

theorem readListLoop_follows (hform : ∀ r, Returns form (form' r) r) (n : Nat) (tail : Val) (r : Reader) :
    Leaves (readListLoop c form sp head n tail) (Microlisp.readListLoop c form' sp head n tail r) r := by
  induction n generalizing tail r with
  | zero => exact .timeout
  | succ n ih =>
    apply Follows.step skip_steps
    apply Follows.step peek_steps
    unfold Microlisp.readListLoop
    dsimp only
    cases (Microlisp.skipWsAndComments r).peek with
    | none => exact .step place_steps (.restoring .refuse)
    | some b =>
      apply Follows.step peek2_steps
      apply Follows.ite
      · exact fun _ => .step advance_steps (.pure ())
      intro _
      apply Follows.ite
      · -- the tail after a dot
        intro _
        apply Follows.step advance_steps
        apply Follows.ite
        · exact fun _ => .step place_steps (.restoring .refuse)
        intro _
        apply (Follows.restoring (hform _)).bind
        intro cdrForm r
        apply Follows.call
        intro _
        apply Follows.step skip_steps
        apply Follows.step peek_steps
        apply Follows.ite
        · exact fun _ => .step place_steps (.restoring .refuse)
        · exact fun _ => .step advance_steps (.pure ())
      · -- an element
        intro _
        apply (Follows.restoring (hform _)).bind
        intro elem r
        apply Follows.callRestoring
        intro _
        apply Follows.callRestoring
        intro cell
        apply Follows.call
        intro _
        exact ih cell r

theorem readList_follows (hform : ∀ r, Returns form (form' r) r) :
    Returns (readList c form) (Microlisp.readList c form' r) r := by
  have hdepth : Steps (gets fun s => s.2.depth) r r.depth r := fun _ => ⟨_, rfl⟩
  apply Follows.step hdepth
  apply Follows.ite
  · exact fun _ => .step place_steps .refuse
  intro _
  apply Follows.step setDepth_steps
  apply Follows.step skip_steps
  apply Follows.step peek_steps
  apply Follows.ite
  · exact fun _ => .step advance_steps (.step setDepth_steps (.pure mvNil))
  intro _
  apply Follows.call
  intro sp
  apply Follows.call
  intro head
  apply Follows.call
  intro _
  apply Follows.step bound_steps
  apply (readListLoop_follows hform _ _ _).bind
  intro _ r
  apply Follows.call
  intro out
  apply Follows.call
  intro _
  exact .step setDepth_steps (.pure out)

theorem readQuote_follows (hform : ∀ r, Returns form (form' r) r) :
    Returns (readQuote c form) (Microlisp.readQuote c form' r) r := by
  apply Follows.step place_steps
  apply Follows.step advance_steps
  apply (hform _).bind
  intro v r
  apply Follows.ite
  · exact fun _ => .refuse
  intro _
  have hmake : Returns (call (makeQuote c v)) (makeQuote c v >>= fun out => pure (out, r)) r := .last
  simpa only [makeQuote, bind_assoc] using hmake

theorem readForm_follows (n : Nat) (r : Reader) : Returns (readForm c n) (Microlisp.readForm c n r) r := by
  induction n generalizing r with
  | zero => exact .timeout
  | succ n ih =>
    apply Follows.step skip_steps
    apply Follows.step peek_steps
    unfold Microlisp.readForm
    dsimp only
    cases (Microlisp.skipWsAndComments r).peek with
    | none => exact .pure mvEof
    | some b =>
      apply Follows.step peek2_steps
      apply Follows.ite
      · exact fun _ => .step advance_steps (readList_follows ih)
      refine fun _ => .ite (fun _ => .step place_steps .refuse) fun _ => ?_
      refine .ite (fun _ => readQuote_follows ih) fun _ => ?_
      refine .ite (fun _ => readString_follows) fun _ => ?_
      refine .ite (fun _ => readHash_follows) fun _ => ?_
      refine .ite (fun _ => readNumber_follows) fun _ => ?_
      refine .ite (fun _ => ?_) fun _ => readSymbol_follows
      exact .ite (fun _ => .step advance_steps readNumber_follows) fun _ => readSymbol_follows

/-- The reader that moves reads what `ml_read` reads. -/
theorem mlRead_follows : Returns (mlRead c) (Microlisp.mlRead c r) r :=
  .step bound_steps (readForm_follows _ r)

end Nested

end Microlisp.InPlace
