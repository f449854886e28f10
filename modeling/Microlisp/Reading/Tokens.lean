import Microlisp.Reading.Lists
import Microlisp.Scan
import Microlisp.Tidy.Reader
/-!
# The reader refines the parser: tokens

Whatever the allocator and whatever is collected, the reader ends as the parser says, with
the datum in the heap; or the allocator, or the symbol table, has no room.
-/
namespace Microlisp

open Prog

/-- How a read fails: without memory, or with the parser's error. -/
def Refused {α : Type} (p : Parse α) (e : Status) (t : State) : Prop :=
  e = .errNomem ∨ p = .error (.error e t.lastError)

/-- The value shows the datum, made of objects that are newer than `s`. -/
def State.New (s t : State) (d : Datum) (v : Val) : Prop := t.Shows (fun a => s.heap.next ≤ a ∧ a < t.heap.next) d v

/-- What a form reads as: at the end of the input, as `MV_EOF`. -/
def State.NewForm (s t : State) : Option Datum → Val → Prop
  | none, v => v = mvEof
  | some d, v => s.New t d v

/-- From `s` the reader `m` does what the parser says. It may run out of its count only where
the parser does. -/
def Refines {α β : Type} (c : Config) (P : Prop) (rel : State → State → β → α → Prop) (s : State) (m : ML (α × Reader))
    (p : Parse (β × Reader)) : Prop :=
  (p = .error .fuel → ¬ P) → wp (readMode P) m s
    (fun x t => s.Reads c [] t ∧ ∃ y, p = .ok (y, x.2) ∧ rel s t y x.1) (Refused p)

section Tokens
variable {c : Config} {P : Prop} {s : State} {r : Reader} {α β : Type} {rel : State → State → β → α → Prop}

theorem raise_refused {line column : Nat} {message : Bytes} {e : Status} {Q : α → State → Prop} :
    wp (readMode P) (raise line column message e : ML α) s Q (Refused (refuse line column message e : Parse β)) :=
  wp_bind (wp_modify (wp_fail (.inr rfl)))

theorem raise_refines {line column : Nat} {message : Bytes} {e : Status} :
    Refines c P rel s (raise line column message e) (refuse line column message e) :=
  fun _ => raise_refused

theorem pure_refines {v : Val} {d : Datum} (hs : s.Ready c) (h : ∀ K, s.Shows K d v) :
    Refines c P State.New s (pure (v, r)) (.ok (d, r)) :=
  fun _ => wp_pure ⟨.refl hs, d, rfl, h _⟩

theorem Refines.ite {b : Prop} [Decidable b] {m m' : ML (α × Reader)} {p p' : Parse (β × Reader)}
    (h : b → Refines c P rel s m p) (h' : ¬ b → Refines c P rel s m' p') :
    Refines c P rel s (if b then m else m') (if b then p else p') := by
  split
  · exact h ‹_›
  · exact h' ‹_›

/-! ## Tokens -/

theorem readHash_refines (hs : s.Ready c) : Refines c P State.New s (readHash r) (parseHash r) := by
  apply Refines.ite
  · exact fun _ => pure_refines hs fun _ => rfl
  · intro _
    exact .ite (fun _ => pure_refines hs fun _ => rfl) fun _ => raise_refines

theorem readNumber_refines (hs : s.Ready c) {sign : Int} :
    Refines c P State.New s (readNumber sign r) (parseNumber sign r) := by
  unfold readNumber parseNumber
  rcases hdigits : readDigits r.rest r 0 false with ⟨none | value, any, r'⟩
  · exact raise_refines
  have hvalue : Digits value := readDigits_digits ⟨by decide, by decide⟩ hdigits
  dsimp only
  refine .ite (fun _ => raise_refines) fun _ => .ite (fun _ => raise_refines) fun _ hfuel => ?_
  have hmake : ∀ x : Int, Refines c P State.New s (if x < mFixMin || x > mFixMax then
        raise r.line r.column (ascii "integer literal exceeds 60-bit fixnum range") .errOverflow
      else do
        let v ← makeFix x
        pure (v, r')) (if x < mFixMin || x > mFixMax then
        refuse r.line r.column (ascii "integer literal exceeds 60-bit fixnum range") .errOverflow
      else .ok (.fix x, r')) := by
    intro x
    apply Refines.ite
    · exact fun _ => raise_refines
    · intro hx _
      have hfits : fitsFixnum x = true := by
        simp only [Bool.or_eq_true, decide_eq_true_iff, not_or, Int.not_lt] at hx
        simp only [mFixMin, mFixMax] at hx
        exact fits_iff.2 (by omega)
      apply wp_bind
      apply makeFix_wp trivial
      exact wp_pure ⟨.refl hs, _, rfl, hfits, rfl⟩
  by_cases hsign : sign < 0
  · simp only [if_pos hsign] at hfuel ⊢
    have hneg : int64Min ≤ -value ∧ -value ≤ int64Max := by
      obtain ⟨hlo, hhi⟩ := hvalue
      simp only [int64Min, int64Max] at hhi ⊢
      omega
    apply wp_bind
    exact int64Op_wp trivial (fun _ => hneg) (hmake _ hfuel)
  · simp only [if_neg hsign] at hfuel ⊢
    exact wp_bind (wp_pure (hmake value hfuel))

/-! ## Symbols -/

theorem findIdx_append_self {names : List Bytes} {name : Bytes} (h : names.findIdx? (fun e => e == name) = none) :
    (names ++ [name]).findIdx? (fun e => e == name) = some names.length := by
  rw [List.findIdx?_append, h]
  simp

theorem mlSymIntern_refines (hs : s.Ready c) {name : Bytes} :
    wp (readMode P) (mlSymIntern c name) s (fun v t => s.Reads c [] t ∧ ∀ K, t.Shows K (.sym name) v)
      (fun e _ => e = .errNomem) := by
  have hfull : ∀ i, i < 0x10000000 → (UInt32.ofNat i).toNat = i := by
    intro i hi
    exact UInt32.toNat_ofNat_of_lt' (by simp [UInt32.size]; omega)
  have hadd : ∀ u : State, s.Reads c [] u → u.symtab.entries = s.symtab.entries →
      s.symtab.entries.findIdx? (fun e => e == name) = none →
      wp (readMode P) (if s.symtab.entries.length > 0x0FFFFFFF then fail .errNomem else do
        rawAllocOrFail c (name.length + 1)
        modify fun s => { s with symtab := ⟨s.symtab.entries ++ [name], s.symtab.capacity⟩ }
        pure (mlMakeSym s.symtab.entries.length) : ML Val) u (fun v t => s.Reads c [] t ∧ ∀ K, t.Shows K (.sym name) v)
        (fun e _ => e = .errNomem) := by
    intro u hu hentries hnew
    apply wp_ite
    · exact fun _ => wp_fail rfl
    intro hroom
    apply wp_seq (rawAllocOrFail_reads (hu.ready hs))
    rintro _ w ⟨hw, -, htable⟩
    have hw' := hu.seq hw
    have hentries' : w.symtab.entries = s.symtab.entries := by rw [htable, hentries]
    refine wp_bind (wp_modify (wp_pure ?_))
    refine ⟨⟨⟨?_, hw'.good.wf.of_eq rfl (fun _ h => h) fun _ h => h⟩, ?_, hw'.data⟩, fun K => ?_⟩
    · exact { hw'.good.reached with entries := hw'.good.reached.entries.trans (List.prefix_append _ _) }
    · show (w.symtab.entries ++ [name]).length ≤ 0x10000000
      rw [hentries', List.length_append, List.length_singleton]
      omega
    · refine ⟨_, rfl, ?_⟩
      show (w.symtab.entries ++ [name]).findIdx? _ = _
      rw [hentries', findIdx_append_self hnew, hfull _ (by omega)]
  apply wp_bind (wp_gets _)
  cases hfind : s.symtab.entries.findIdx? (fun e => e == name) with
  | some i =>
    refine wp_pure ⟨.refl hs, fun K => ⟨_, rfl, ?_⟩⟩
    obtain ⟨hlt, -⟩ := List.findIdx?_eq_some_iff_getElem.1 hfind
    have := hs.table
    rw [hfind, hfull i (by omega)]
  | none =>
    dsimp only
    apply wp_bind (wp_gets _)
    apply wp_ite
    · intro _
      apply wp_seq (rawAllocOrFail_reads hs)
      rintro _ u ⟨hu, -, htable⟩
      apply wp_bind (wp_modify _)
      apply hadd _ _ (by rw [htable]) hfind
      exact ⟨⟨{ hu.good.reached with }, hu.good.wf.of_eq rfl (fun _ h => h) fun _ h => h⟩, hu.table, hu.data⟩
    · exact fun _ => hadd s (.refl hs) rfl hfind

theorem readSymbol_refines (hs : s.Ready c) : Refines c P State.New s (readSymbol c r) (parseSymbol r) := by
  intro _
  apply wp_seq (wp_mono (mlSymIntern_refines hs) (fun _ _ h => h) fun _ _ h => .inl h)
  exact fun v t ht => wp_pure ⟨ht.1, _, rfl, ht.2 _⟩

/-! ## Strings -/

theorem readEscape_refines {l k : Nat} :
    wp (readMode P) (readEscape l k r) s (fun x t => t = s ∧ parseEscape l k r = .ok x)
      (Refused (parseEscape l k r)) := by
  unfold readEscape parseEscape
  cases r.peek with
  | none => exact raise_refused
  | some esc =>
    dsimp only
    iterate 6
      split
      · exact wp_pure ⟨rfl, rfl⟩
    split
    · cases r.advance.peek.bind hexDigit with
      | none => exact raise_refused
      | some h1 =>
        cases r.advance.advance.peek.bind hexDigit with
        | none => exact raise_refused
        | some h2 => exact wp_pure ⟨rfl, rfl⟩
    · exact raise_refused

theorem readStringLoop_refines {l k : Nat} (hs : s.Ready c) (n : Nat) (r : Reader) (buf : Bytes) (cap : Nat)
    (hfuel : parseStringLoop l k n r buf = .error .fuel → ¬ P) :
    wp (readMode P) (readStringLoop c l k n r buf cap) s (fun x t => s.Reads c [] t ∧
      parseStringLoop l k n r buf = .ok x)
      (Refused (parseStringLoop l k n r buf)) := by
  induction n generalizing s r buf cap with
  | zero => exact wp_timeout (hfuel rfl)
  | succ n ih =>
    unfold readStringLoop
    cases hpeek : r.peek with
    | none =>
      have hp : parseStringLoop l k (n + 1) r buf
          = refuse l k (ascii "unterminated string literal") .errReadTruncated := by
        rw [parseStringLoop, hpeek]
      rw [hp]
      exact raise_refused
    | some b =>
      dsimp only
      by_cases hb : b = ch '"'
      · have hp : parseStringLoop l k (n + 1) r buf = .ok (buf, r.advance) := by
          rw [parseStringLoop, hpeek]
          simp [hb]
        rw [if_pos hb]
        exact wp_pure ⟨.refl hs, hp⟩
      · rw [if_neg hb]
        -- the byte, whether escaped or not, goes on the buffer
        have hpush : ∀ x : UInt8 × Reader, parseStringLoop l k (n + 1) r buf = parseStringLoop l k n x.2
            (buf ++ [x.1]) →
            wp (readMode P) (do
              let cap ← if buf.length = cap then do
                  rawAllocOrFail c (cap * 2)
                  pure (cap * 2)
                else
                  pure cap
              readStringLoop c l k n x.2 (buf ++ [x.1]) cap) s
              (fun y t => s.Reads c [] t ∧ parseStringLoop l k (n + 1) r buf = .ok y)
              (Refused (parseStringLoop l k (n + 1) r buf)) := by
          intro x hx
          rw [hx] at hfuel ⊢
          apply wp_ite
          · intro _
            apply wp_seq (wp_mono (rawAllocOrFail_reads hs) (fun _ _ h => h) fun _ _ h => .inl h)
            rintro _ t ⟨ht, -⟩
            apply wp_bind (wp_pure _)
            exact wp_mono (ih (ht.ready hs) _ _ _ hfuel) (fun _ _ h => ⟨ht.seq h.1, h.2⟩) fun _ _ h => h
          · exact fun _ => wp_bind (wp_pure (ih hs _ _ _ hfuel))
        by_cases hesc : b = ch '\\'
        · rw [if_pos hesc]
          have hp : parseStringLoop l k (n + 1) r buf
              = (parseEscape l k r.advance >>= fun x => parseStringLoop l k n x.2 (buf ++ [x.1])) := by
            rw [parseStringLoop, hpeek]
            simp only [if_neg hb, if_pos hesc]
          apply wp_bind
          apply wp_mono readEscape_refines
          · rintro x t ⟨rfl, hx⟩
            exact hpush x (by rw [hp, hx]; rfl)
          · rintro e t (he | he)
            · exact .inl he
            · exact .inr (by rw [hp, he]; rfl)
        · rw [if_neg hesc]
          apply wp_bind (wp_pure _)
          apply hpush (b, r.advance)
          rw [parseStringLoop, hpeek]
          simp only [if_neg hb, if_neg hesc]
          rfl

theorem readString_refines (hs : s.Ready c) : Refines c P State.New s (readString c r) (parseString r) := by
  intro hfuel
  unfold readString
  apply wp_seq (wp_mono (rawAllocOrFail_reads hs) (fun _ _ h => h) fun _ _ h => .inl h)
  rintro _ t ⟨ht, -⟩
  have hloop := readStringLoop_refines (P := P) (l := r.line) (k := r.column) (ht.ready hs)
    (r.advance.rest.length + 1) r.advance [] 32
    fun hp => hfuel (by rw [parseString, hp]; rfl)
  apply wp_bind
  apply wp_mono hloop
  · rintro ⟨buf, r'⟩ u ⟨hu, hp⟩
    have hu' := ht.seq hu
    have hready := hu'.ready hs
    apply wp_seq (wp_mono (gcAlloc_reads (o := .string buf) hready trivial rfl nofun) (fun _ _ h => h)
      fun _ _ h => .inl h)
    rintro _ w ⟨hw, rfl, hget, hnext⟩
    apply wp_pure
    refine ⟨hu'.seq hw, .str buf, by rw [parseString, hp]; rfl, _, rfl, ⟨hu'.next_le, ?_⟩, hget⟩
    rw [hnext]
    exact Nat.lt_succ_self _
  · rintro e u (he | he)
    · exact .inl he
    · exact .inr (by rw [parseString, he]; rfl)

end Tokens
end Microlisp
