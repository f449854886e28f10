import Microlisp.Reading.InPlace
/-!
# The reader's positions

Wherever a read comes to, the line and the column are those of the position in the text.
What it reports of a text that it refuses, is such a place too, not past where it stopped.
-/
namespace Microlisp

open Prog

/-! ## Places in a text -/

/-- One and the newlines before position `j`. -/
def lineAt (input : Bytes) (j : Nat) : Nat := 1 + (input.take j).count (ch '\n')

/-- One and the bytes since the last newline before position `j`. -/
def columnAt (input : Bytes) (j : Nat) : Nat := 1 + ((input.take j).reverse.takeWhile (· ≠ ch '\n')).length

/-- The reader is in this text, and knows where. -/
structure Reader.At (input : Bytes) (r : Reader) : Prop where
  pos : r.pos ≤ input.length
  rest : r.rest = input.drop r.pos
  line : r.line = lineAt input r.pos
  column : r.column = columnAt input r.pos

/-- The line and column of a position up to `k`. -/
def Spot (input : Bytes) (k : Nat) (here : Nat × Nat) : Prop := ∃ j ≤ k, here = (lineAt input j, columnAt input j)

section Places
variable {input : Bytes} {r : Reader} {j k : Nat} {here : Nat × Nat} {b : UInt8}

theorem take_succ_of_getElem? (h : input[j]? = some b) : input.take (j + 1) = input.take j ++ [b] := by
  rw [List.take_add_one, h]
  rfl

theorem lineAt_succ (h : input[j]? = some b) :
    lineAt input (j + 1) = if b = ch '\n' then lineAt input j + 1 else lineAt input j := by
  unfold lineAt
  rw [take_succ_of_getElem? h, List.count_append, List.count_singleton]
  by_cases hb : b = ch '\n' <;> simp [hb, Nat.add_assoc]

theorem columnAt_succ (h : input[j]? = some b) :
    columnAt input (j + 1) = if b = ch '\n' then 1 else columnAt input j + 1 := by
  unfold columnAt
  rw [take_succ_of_getElem? h, List.reverse_append, List.reverse_singleton, List.singleton_append, List.takeWhile_cons]
  by_cases hb : b = ch '\n' <;> simp [hb, Nat.add_assoc]

theorem Reader.at_start : (Reader.start input).At input := by
  refine ⟨Nat.zero_le _, rfl, ?_, ?_⟩
  · simp [Reader.start, lineAt]
  · simp [Reader.start, columnAt]

theorem Reader.At.place (h : r.At input) : Spot input r.pos (r.line, r.column) :=
  ⟨r.pos, Nat.le_refl _, by rw [h.line, h.column]⟩

theorem Spot.mono (h : Spot input k here) (hk : k ≤ j) : Spot input j here := by
  obtain ⟨i, hi, rfl⟩ := h
  exact ⟨i, Nat.le_trans hi hk, rfl⟩

/-- At the end of the text the reader stays; before it, it takes the byte at its position. -/
theorem Reader.At.advance (h : r.At input) : r.advance.At input := by
  cases hrest : r.rest with
  | nil =>
    rw [advance_eq_self hrest]
    exact h
  | cons b bs =>
    have hb : input[r.pos]? = some b := by
      rw [← List.head?_drop, ← h.rest, hrest]
      rfl
    have hpos : r.pos < input.length := (List.getElem?_eq_some_iff.1 hb).1
    have hdrop : bs = input.drop (r.pos + 1) := by
      rw [← List.tail_drop, ← h.rest, hrest]
      rfl
    unfold Reader.advance
    rw [hrest]
    dsimp only
    by_cases hnl : b = ch '\n'
    · simp only [if_pos hnl]
      refine ⟨hpos, hdrop, ?_, ?_⟩
      · rw [lineAt_succ hb, if_pos hnl, ← h.line]
      · rw [columnAt_succ hb, if_pos hnl]
    · simp only [if_neg hnl]
      refine ⟨hpos, hdrop, ?_, ?_⟩
      · rw [lineAt_succ hb, if_neg hnl, ← h.line]
      · rw [columnAt_succ hb, if_neg hnl, ← h.column]

theorem Reader.pos_le_advance (r : Reader) : r.pos ≤ r.advance.pos := by
  cases hrest : r.rest with
  | nil => rw [advance_eq_self hrest]
  | cons b bs =>
    rw [pos_advance hrest]
    exact Nat.le_succ _

end Places

/-! ## Calls that fail for want of memory alone -/

def Scarce {α : Type} (m : ML α) : Prop :=
  Triple Mode.partly (fun _ => True) m (fun _ _ => True) (fun e _ => e = .errNomem)

namespace Scarce

variable {c : Config} {α β : Type} {m m' : ML α} {f : α → ML β}

theorem pure {a : α} : Scarce (Pure.pure a : ML α) := Triple.pure fun _ _ => trivial

theorem stuck : Scarce (Prog.stuck : ML α) := Triple.stuck fun _ _ => id

theorem modify {g : State → State} : Scarce (Prog.modify g) := Triple.modify fun _ _ => trivial

theorem look {g : State → α} (hf : ∀ a, Scarce (f a)) : Scarce (Prog.gets g >>= f) :=
  Triple.bind (Triple.gets (Q := fun _ _ => True) fun _ _ => trivial) hf

theorem bind (h : Scarce m) (hf : ∀ a, Scarce (f a)) : Scarce (m >>= f) := Triple.bind h hf

theorem ite {b : Prop} [Decidable b] (h : b → Scarce m) (h' : ¬ b → Scarce m') : Scarce (if b then m else m') :=
  Triple.ite h h'

theorem onErr {g : State → State} (h : Scarce m) : Scarce (m.onErr g) := Triple.onErr h

theorem andThen {g : State → State} (h : Scarce m) : Scarce (m.andThen g) := Triple.andThen h

/-- What `wp` knows of every state. -/
theorem of_wp {Q : State → α → State → Prop} {E : State → Status → State → Prop}
    (h : ∀ s, wp Mode.partly m s (Q s) (E s))
    (hE : ∀ s e t, E s e t → e = .errNomem) : Scarce m :=
  fun s _ => wp_mono (h s) (fun _ _ _ => trivial) (hE s)

end Scarce

section Memory
variable {c : Config} {v d : Val}

theorem rawAllocOrFail_scarce {size : Nat} : Scarce (rawAllocOrFail c size) :=
  .of_wp (fun _ => rawAllocOrFail_wp) fun _ _ _ h => h.1

theorem mlGcProtect_scarce : Scarce (mlGcProtect c v) := .of_wp (fun _ => mlGcProtect_wp) fun _ _ _ h => h.1

theorem mlGcCollect_scarce : Scarce (mlGcCollect c) :=
  .of_wp (fun s => mlGcCollect_shrunk (s := s) (E := fun _ _ => False) (G := fun _ => True) watches_partly
    fun _ _ _ => trivial)
    fun _ _ _ => False.elim

theorem gcAlloc_scarce {size : Nat} {o : Obj} : Scarce (gcAlloc c size o) := by
  have hcollect : Scarce (maybeCollect c) := .look fun _ => .ite (fun _ => mlGcCollect_scarce) fun _ => .pure
  apply hcollect.bind
  intro _
  apply rawAllocOrFail_scarce.bind
  exact fun _ => .of_wp (E := fun _ _ _ => False) (fun _ => linkObject_wp trivial) fun _ _ _ => False.elim

theorem mlSymIntern_scarce {name : Bytes} : Scarce (mlSymIntern c name) :=
  .of_wp (fun _ => mlSymIntern_adds) fun _ _ _ h => h.1

theorem cdr_scarce : Scarce (cdr v) :=
  .of_wp (E := fun _ _ _ => False) (fun _ => cdr_wp False.elim) fun _ _ _ => False.elim

theorem setCdr_scarce : Scarce (setCdr v d) := by
  have hobj : Scarce (asObj v) := by
    cases v with
    | obj a => exact .of_wp (E := fun _ _ _ => False) (fun _ => readObj_wp False.elim) fun _ _ _ => False.elim
    | _ => exact .stuck
  apply hobj.bind
  intro o
  cases o with
  | pair a _ =>
    exact .of_wp (E := fun _ _ _ => False) (fun _ => writeObj_wp False.elim fun _ _ => trivial) fun _ _ _ => False.elim
  | _ => exact .stuck

theorem makeQuote_scarce : Scarce (InPlace.makeQuote c v) := by
  apply Scarce.look
  intro sp
  apply mlGcProtect_scarce.bind
  intro _
  apply (Scarce.onErr gcAlloc_scarce).bind
  intro inner
  apply Scarce.modify.bind
  intro _
  exact mlGcProtect_scarce.bind fun _ => .andThen gcAlloc_scarce

end Memory
/-! ## Runs through a text -/

namespace InPlace

/-- What a failure records of a text read up to `k`. -/
def Reports (input : Bytes) (k : Nat) (e : Status) (s : State) : Prop :=
  e = .errNomem ∨ Spot input k (s.lastError.line, s.lastError.column)

/-- From position `k` on, every point that `m` comes to is in the text, and so is what it
reports. -/
def Tracks {α : Type} (input : Bytes) (k : Nat) (m : Moving α) : Prop :=
  Triple (Mode.noting fun r => r.At input ∧ k ≤ r.pos) (fun u => u.2.At input ∧ k ≤ u.2.pos) m
    (fun _ u => u.2.At input ∧ k ≤ u.2.pos) (fun e u => (u.2.At input ∧ k ≤ u.2.pos) ∧ Reports input u.2.pos e u.1)

namespace Tracks

variable {α β : Type} {input : Bytes} {k : Nat} {m m' : Moving α} {f : α → Moving β} {here : Nat × Nat}

theorem pure {a : α} : Tracks input k (Pure.pure a : Moving α) := Triple.pure fun _ h => h

theorem timeout : Tracks input k (Prog.timeout : Moving α) := Triple.timeout fun _ _ => id

theorem bind (h : Tracks input k m) (hf : ∀ a, Tracks input k (f a)) : Tracks input k (m >>= f) := Triple.seq h hf

theorem look {g : State × Reader → α} (hf : ∀ a, Tracks input k (f a)) : Tracks input k (Prog.gets g >>= f) :=
  Triple.seq (Triple.gets fun _ h => h) hf

/-- The place is kept for later, when the position is further on. -/
theorem placed {f : Nat × Nat → Moving β} (hf : ∀ here k', Spot input k' here → k ≤ k' → Tracks input k' (f here)) :
    Tracks input k (place >>= f) := by
  intro u hu
  apply wp_bind
  apply wp_gets
  have hrun := hf _ _ hu.1.place hu.2 u ⟨hu.1, Nat.le_refl _⟩
  refine wp_mono (wp_weaken hrun (fun _ h => h) ?_ id id) ?_ ?_
  · exact fun r hr => ⟨hr.1, Nat.le_trans hu.2 hr.2⟩
  · exact fun _ v hv => ⟨hv.1, Nat.le_trans hu.2 hv.2⟩
  · exact fun _ v hv => ⟨⟨hv.1.1, Nat.le_trans hu.2 hv.1.2⟩, hv.2⟩

theorem ite {b : Prop} [Decidable b] (h : b → Tracks input k m) (h' : ¬ b → Tracks input k m') :
    Tracks input k (if b then m else m') := Triple.ite h h'

/-- A call leaves the reader where it is. -/
theorem call {m : ML α} (h : ∀ s, wp Mode.partly m s (fun _ _ => True) (fun e t => Reports input k e t)) :
    Tracks input k (InPlace.call m) := by
  intro u hu _
  refine ⟨nofun, ?_⟩
  have hm := (h u.1 fun _ _ => id).2
  unfold InPlace.call onFst
  dsimp only
  cases hr : (m u.1).res with
  | ok a => exact hu
  | error x =>
    cases x with
    | err e =>
      rw [hr] at hm
      exact ⟨hu, hm.imp_right fun h => h.mono hu.2⟩
    | stuck => exact id
    | timeout => exact id

theorem scarce {m : ML α} (h : Scarce m) : Tracks input k (InPlace.call m) :=
  call fun s => wp_mono (h s trivial) (fun _ _ _ => trivial) fun _ _ he => .inl he

theorem modify {g : State → State} : Tracks input k (InPlace.call (Prog.modify g)) := scarce .modify

theorem refuse {message : Bytes} {e : Status} (h : Spot input k here) :
    Tracks input k (refuse here message e : Moving α) :=
  call fun _ => wp_bind (wp_modify (wp_fail (.inr h)))

theorem restoring {sp : Nat} (h : Tracks input k m) : Tracks input k (restoring sp m) := Triple.onErr h

theorem setDepth {g : Nat → Nat} : Tracks input k (setDepth g) :=
  Triple.modify fun _ h => ⟨⟨h.1.pos, h.1.rest, h.1.line, h.1.column⟩, h.2⟩

theorem advance : Tracks input k advance := by
  intro u hu
  have hnext : (u.2.advance).At input ∧ k ≤ u.2.advance.pos := ⟨hu.1.advance, Nat.le_trans hu.2 u.2.pos_le_advance⟩
  apply wp_bind
  apply wp_gets
  apply wp_bind
  apply wp_modify
  apply wp_bind
  apply wp_gets
  apply wp_bind
  apply wp_emit
  exact fun _ => ⟨hnext, wp_pure hnext⟩

/-- What is refused at the point that the reader is at. -/
theorem refuseHere {message : Bytes} {e : Status} {sp : Nat} :
    Tracks input k (place >>= fun here => InPlace.restoring sp (InPlace.refuse here message e : Moving α)) :=
  placed fun _ _ h _ => .restoring (.refuse h)

end Tracks

section Reading
variable {input : Bytes} {k : Nat} {p : UInt8 → Bool} {start : Nat × Nat} {c : Config}

theorem advanceWhile_tracks : Tracks input k (advanceWhile p) := by
  have hloop : ∀ n, Tracks input k (advanceWhileLoop p n) := by
    intro n
    induction n with
    | zero => exact .timeout
    | succ n ih =>
      apply Tracks.look
      intro b
      cases b with
      | none => exact .pure
      | some b => exact .ite (fun _ => Tracks.advance.bind fun _ => ih) fun _ => .pure
  exact .look hloop

theorem skip_tracks : Tracks input k skipWsAndComments := by
  have hloop : ∀ n, Tracks input k (skipLoop n) := by
    intro n
    induction n with
    | zero => exact .timeout
    | succ n ih =>
      apply Tracks.look
      intro b
      cases b with
      | none => exact .pure
      | some b =>
        apply Tracks.ite
        · exact fun _ => Tracks.advance.bind fun _ => ih
        · exact fun _ => .ite (fun _ => advanceWhile_tracks.bind fun _ => ih) fun _ => .pure
  exact .look hloop

/-- In an escape that is malformed, the place is the one past it. -/
theorem readEscape_tracks (hstart : Spot input k start) : Tracks input k (readEscape start) := by
  apply Tracks.advance.bind
  intro esc
  cases esc with
  | none => exact .refuse hstart
  | some esc =>
    iterate 6 refine .ite (fun _ => .pure) fun _ => ?_
    apply Tracks.ite
    · intro _
      apply Tracks.advance.bind
      intro hi
      apply Tracks.advance.bind
      intro lo
      cases hi.bind hexDigit with
      | none => exact .placed fun _ _ h _ => .refuse h
      | some h1 => cases lo.bind hexDigit with
        | none => exact .placed fun _ _ h _ => .refuse h
        | some h2 => exact .pure
    · exact fun _ => .placed fun _ _ h _ => .refuse h

theorem growScratch_scarce {len cap : Nat} : Scarce (growScratch c len cap) :=
  .ite (fun _ => rawAllocOrFail_scarce.bind fun _ => .pure) fun _ => .pure

theorem readStringLoop_tracks (hstart : Spot input k start) (n : Nat) (buf : Bytes) (cap : Nat) :
    Tracks input k (readStringLoop c start n buf cap) := by
  induction n generalizing buf cap with
  | zero => exact .timeout
  | succ n ih =>
    apply Tracks.look
    intro b
    cases b with
    | none => exact .refuse hstart
    | some b =>
      have hpush : ∀ b, Tracks input k (do
          let cap ← call (growScratch c buf.length cap)
          readStringLoop c start n (buf ++ [b]) cap) :=
        fun b => (Tracks.scarce growScratch_scarce).bind fun cap => ih _ cap
      apply Tracks.advance.bind
      intro _
      apply Tracks.ite
      · exact fun _ => .pure
      · exact fun _ => .ite (fun _ => (readEscape_tracks hstart).bind hpush) fun _ => Tracks.pure.bind hpush

theorem readString_tracks : Tracks input k (readString c) := by
  apply Tracks.placed
  intro start k' hstart _
  apply Tracks.advance.bind
  intro _
  apply (Tracks.scarce rawAllocOrFail_scarce).bind
  intro _
  apply Tracks.look
  intro n
  exact (readStringLoop_tracks hstart _ _ _).bind fun _ => .scarce gcAlloc_scarce

theorem readHash_tracks : Tracks input k readHash := by
  apply Tracks.placed
  intro start k' hstart _
  apply Tracks.advance.bind
  intro _
  apply Tracks.advance.bind
  intro b
  apply Tracks.look
  intro next
  exact .ite (fun _ => .pure) fun _ => .ite (fun _ => .pure) fun _ => .refuse hstart

theorem readDigits_tracks (n : Nat) (value : Int) (anyDigit : Bool) : Tracks input k (readDigits n value anyDigit) := by
  induction n generalizing value anyDigit with
  | zero => exact .timeout
  | succ n ih =>
    apply Tracks.look
    intro b
    cases b with
    | none => exact .pure
    | some b =>
      apply Tracks.ite _ fun _ => .pure
      intro _
      apply Tracks.advance.bind
      intro _
      dsimp only
      cases (int64Checked (value * 10)).bind fun multiplied =>
        int64Checked (multiplied + ((b - ch '0').toNat : Int)) with
      | none => exact advanceWhile_tracks.bind fun _ => .pure
      | some added => exact ih _ _

/-- A number that is too large is reported where it starts. -/
theorem makeNumber_tracks {sign value : Int} (hstart : Spot input k start) :
    Tracks input k (call (makeNumber sign start value)) := by
  have hfix : ∀ (value : Int) (s : State), wp Mode.partly (if value < mFixMin || value > mFixMax then
      raise start.1 start.2 (ascii "integer literal exceeds 60-bit fixnum range") .errOverflow
    else makeFix value : ML Val) s (fun _ _ => True) (fun e t => Reports input k e t) := by
    intro value s
    apply wp_ite
    · exact fun _ => wp_bind (wp_modify (wp_fail (.inr hstart)))
    · exact fun _ => makeFix_wp trivial trivial
  apply Tracks.call
  intro s
  unfold makeNumber
  dsimp only
  by_cases hneg : sign < 0
  · simp only [if_pos hneg]
    exact wp_bind (int64Op_wp trivial False.elim (hfix _ s))
  · simp only [if_neg hneg]
    exact hfix _ s

theorem readNumber_tracks {sign : Int} : Tracks input k (readNumber sign) := by
  apply Tracks.placed
  intro start k' hstart _
  apply Tracks.look
  intro n
  apply (readDigits_tracks n 0 false).bind
  rintro ⟨value, anyDigit⟩
  cases value with
  | none => exact .refuse hstart
  | some value =>
    apply Tracks.ite
    · exact fun _ => .refuse hstart
    intro _
    apply Tracks.look
    intro next
    apply Tracks.ite
    · exact fun _ => .placed fun _ _ h _ => .refuse h
    · exact fun _ => makeNumber_tracks hstart

theorem readSymbol_tracks : Tracks input k (readSymbol c) := by
  apply Tracks.look
  intro start
  apply advanceWhile_tracks.bind
  intro _
  exact .look fun _ => .scarce mlSymIntern_scarce

end Reading

section Nested
variable {input : Bytes} {k : Nat} {c : Config} {form : Moving Val} {sp : Nat} {head : Val}

theorem readListLoop_tracks (hform : ∀ k, Tracks input k form) (n : Nat) (tail : Val) :
    Tracks input k (readListLoop c form sp head n tail) := by
  induction n generalizing tail with
  | zero => exact .timeout
  | succ n ih =>
    apply skip_tracks.bind
    intro _
    apply Tracks.look
    intro b
    cases b with
    | none => exact .refuseHere
    | some b =>
      apply Tracks.look
      intro next
      apply Tracks.ite
      · exact fun _ => Tracks.advance.bind fun _ => .pure
      intro _
      apply Tracks.ite
      · -- the tail after a dot
        intro _
        apply Tracks.advance.bind
        intro _
        apply Tracks.ite
        · exact fun _ => .refuseHere
        intro _
        apply (Tracks.restoring (hform k)).bind
        intro cdrForm
        apply (Tracks.scarce setCdr_scarce).bind
        intro _
        apply skip_tracks.bind
        intro _
        apply Tracks.look
        intro close
        apply Tracks.ite
        · exact fun _ => .refuseHere
        · exact fun _ => Tracks.advance.bind fun _ => .pure
      · -- an element
        intro _
        apply (Tracks.restoring (hform k)).bind
        intro elem
        apply (Tracks.restoring (.scarce mlGcProtect_scarce)).bind
        intro _
        apply (Tracks.restoring (.scarce (.andThen gcAlloc_scarce))).bind
        intro cell
        exact (Tracks.scarce setCdr_scarce).bind fun _ => ih cell

theorem readList_tracks (hform : ∀ k, Tracks input k form) : Tracks input k (readList c form) := by
  apply Tracks.look
  intro depth
  apply Tracks.ite
  · exact fun _ => .placed fun _ _ h _ => .refuse h
  intro _
  apply Tracks.setDepth.bind
  intro _
  apply skip_tracks.bind
  intro _
  apply Tracks.look
  intro next
  apply Tracks.ite
  · exact fun _ => Tracks.advance.bind fun _ => Tracks.setDepth.bind fun _ => .pure
  intro _
  apply (Tracks.scarce (.look fun _ => .pure)).bind
  intro sp
  apply (Tracks.scarce gcAlloc_scarce).bind
  intro head
  apply (Tracks.scarce mlGcProtect_scarce).bind
  intro _
  apply Tracks.look
  intro n
  apply (readListLoop_tracks hform n head).bind
  intro _
  apply (Tracks.scarce cdr_scarce).bind
  intro out
  exact Tracks.modify.bind fun _ => Tracks.setDepth.bind fun _ => .pure

theorem readQuote_tracks (hform : ∀ k, Tracks input k form) : Tracks input k (readQuote c form) := by
  apply Tracks.placed
  intro start k' hstart _
  apply Tracks.advance.bind
  intro _
  apply (hform k').bind
  intro v
  exact .ite (fun _ => .refuse hstart) fun _ => .scarce makeQuote_scarce

theorem readForm_tracks (n : Nat) (k : Nat) : Tracks input k (readForm c n) := by
  induction n generalizing k with
  | zero => exact .timeout
  | succ n ih =>
    apply skip_tracks.bind
    intro _
    apply Tracks.look
    intro b
    cases b with
    | none => exact .pure
    | some b =>
      apply Tracks.look
      intro next
      refine .ite (fun _ => Tracks.advance.bind fun _ => readList_tracks ih) fun _ => ?_
      refine .ite (fun _ => .placed fun _ _ h _ => .refuse h) fun _ => ?_
      refine .ite (fun _ => readQuote_tracks ih) fun _ => ?_
      refine .ite (fun _ => readString_tracks) fun _ => ?_
      refine .ite (fun _ => readHash_tracks) fun _ => ?_
      refine .ite (fun _ => readNumber_tracks) fun _ => ?_
      refine .ite (fun _ => ?_) fun _ => readSymbol_tracks
      exact .ite (fun _ => Tracks.advance.bind fun _ => readNumber_tracks) fun _ => readSymbol_tracks

theorem mlRead_tracks : Tracks input k (mlRead c) := .look fun n => readForm_tracks n k

end Nested
/-- What the reader that moves ends in. -/
theorem mlRead_same {c : Config} {s : State} {r : Reader} :
    (Microlisp.mlRead c r s).res = (mlRead c (s, r)).res.map (fun v => (v, (mlRead c (s, r)).state.2)) ∧
      ∀ o, (mlRead c (s, r)).Ends o → (Microlisp.mlRead c r s).state = (mlRead c (s, r)).state.1 := by
  have h := mlRead_follows (c := c) (r := r) s
  unfold RelatedAt at h
  cases hr : (mlRead c (s, r)).res with
  | ok v =>
    cases hr' : (Microlisp.mlRead c r s).res with
    | ok x =>
      simp only [hr, hr'] at h
      exact ⟨by rw [h.1]; rfl, fun _ _ => h.2⟩
    | error y => simp only [hr, hr'] at h
  | error x =>
    cases hr' : (Microlisp.mlRead c r s).res with
    | ok y => simp only [hr, hr'] at h
    | error y =>
      simp only [hr, hr', false_or] at h
      obtain ⟨rfl, h⟩ := h
      refine ⟨rfl, fun o ho => ?_⟩
      unfold Run.Ends at ho
      rw [hr] at ho
      cases o with
      | ok v => cases ho
      | error e => exact h e (by cases ho; rfl)

end InPlace

/-- The positions are right at the start of a text, and wherever a read of it comes to. A failure
for another reason than want of memory records a place in what has been read. -/
theorem mlRead_positions (input : Bytes) :
    (Reader.start input).At input ∧ ∀ (c : Config) (s : State) (r : Reader), r.At input →
      (∀ p ∈ (InPlace.mlRead c (s, r)).trace, p.At input ∧ r.pos ≤ p.pos) ∧
      (mlRead c r s).res = (InPlace.mlRead c (s, r)).res.map (fun v => (v, (InPlace.mlRead c (s, r)).state.2)) ∧
      ∀ o, (InPlace.mlRead c (s, r)).Ends o →
        (InPlace.mlRead c (s, r)).state.2.At input ∧ (mlRead c r s).state = (InPlace.mlRead c (s, r)).state.1 ∧
        ∀ e, o = .error e → e ≠ .errNomem →
          1 ≤ (mlRead c r s).state.lastError.line ∧ 1 ≤ (mlRead c r s).state.lastError.column ∧
          ∃ j ≤ (InPlace.mlRead c (s, r)).state.2.pos,
            (mlRead c r s).state.lastError.line = lineAt input j ∧ (mlRead c r s).state.lastError.column
              = columnAt input j := by
  refine ⟨Reader.at_start, fun c s r hr => ?_⟩
  obtain ⟨hpoints, hend⟩ := InPlace.mlRead_tracks (c := c) (s, r) ⟨hr, Nat.le_refl _⟩ fun _ _ => id
  obtain ⟨hres, hstate⟩ := InPlace.mlRead_same (c := c) (s := s) (r := r)
  refine ⟨hpoints, hres, fun o ho => ?_⟩
  rw [hstate o ho]
  unfold Run.Ends at ho
  rw [ho] at hend
  cases o with
  | ok v => exact ⟨hend.1, rfl, nofun⟩
  | error e =>
    refine ⟨hend.1.1, rfl, ?_⟩
    rintro _ ⟨⟩ he
    obtain ⟨j, hj, hplace⟩ := hend.2.resolve_left he
    obtain ⟨hline, hcolumn⟩ := Prod.mk.inj hplace
    rw [hline, hcolumn]
    exact ⟨Nat.le_add_right 1 _, Nat.le_add_right 1 _, j, hj, rfl, rfl⟩

end Microlisp
