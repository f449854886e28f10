import Microlisp.Lib.Related
import Microlisp.Lockstep.Line
import Microlisp.More
/-!
# Two readers along one text

A reader does not look further than the end of what it takes, and the line it counts is for
messages only. So two readers do the same that are in front of one text, on whatever lines, and
even where the text of one of them goes on when the other's ends, as long as that one does not
come to the end.
-/
namespace Microlisp

open Prog

/-! ## Readers -/

/-- `r'` is in front of the text of `r` with `q` after it, in the same column of some line. -/
structure Reader.Along (q : Bytes) (r r' : Reader) : Prop where
  rest : r'.rest = r.rest ++ q
  depth : r'.depth = r.depth
  column : r'.column = r.column

/-- What `r` sees next is what a reader sees that is along with it. -/
def Reader.Sees (q : Bytes) (r : Reader) : Prop := q ≠ [] → r.rest ≠ []

section Along
open Reader
variable {q : Bytes} {r r' : Reader} {b : UInt8} {p : UInt8 → Bool}

theorem Reader.Along.peek (h : r.Along q r') (hs : r.Sees q) : r'.peek = r.peek := by
  unfold Reader.peek
  rw [h.rest]
  cases hr : r.rest with
  | cons b bs => rfl
  | nil =>
    by_cases hq : q = []
    · rw [hq, List.append_nil]
    · exact absurd hr (hs hq)

theorem Reader.sees_of_peek (h : r.peek = some b) : r.Sees q := fun _ => rest_ne_nil h

theorem Reader.column_advance {bs : Bytes} (h : r.rest = b :: bs) :
    r.advance.column = if b = ch '\n' then 1 else r.column + 1 := by
  unfold Reader.advance
  rw [h]
  dsimp only
  split <;> rfl

theorem Reader.Along.advance (h : r.Along q r') (hs : r.Sees q) : r.advance.Along q r'.advance := by
  cases hr : r.rest with
  | cons b bs =>
    have hr' : r'.rest = b :: (bs ++ q) := by rw [h.rest, hr, List.cons_append]
    refine ⟨?_, by rw [depth_advance, depth_advance, h.depth], ?_⟩
    · rw [rest_advance hr, rest_advance hr']
    · rw [column_advance hr, column_advance hr', h.column]
  | nil =>
    by_cases hq : q = []
    · have hr' : r'.rest = [] := by rw [h.rest, hr, hq, List.append_nil]
      rwa [advance_eq_self hr, advance_eq_self hr']
    · exact absurd hr (hs hq)

theorem Reader.Along.eat {bs cs : Bytes} (h : r.Along q r') (hr : r.rest = bs ++ cs) :
    (r.eat bs).Along q (r'.eat bs) := by
  induction bs generalizing r r' with
  | nil => exact h
  | cons b bs ih => exact ih (h.advance (sees_of_peek (peek_of_rest hr))) (rest_advance hr)

theorem Reader.Along.setDepth {n : Nat} (h : r.Along q r') :
    Reader.Along q { r with depth := n } { r' with depth := n } :=
  ⟨h.rest, rfl, h.column⟩

theorem Reader.Sees.of_advance (h : r.advance.Sees q) : r.Sees q := by
  intro hq hr
  rw [advance_eq_self hr] at h
  exact h hq hr

theorem Reader.Past.sees (h : r.Past r') (hs : r'.Sees q) : r.Sees q := by
  intro hq hr
  have hle := h.length_le
  rw [hr] at hle
  exact hs hq (List.eq_nil_of_length_eq_zero (Nat.le_zero.1 hle))

theorem Reader.Along.skip (h : r.Along q r') (hs : (skipWsAndComments r).Sees q) :
    (skipWsAndComments r).Along q (skipWsAndComments r') := by
  rcases skip_cases r with ⟨lay, b, bs, heq, hlay, hstarts, hskip⟩ | ⟨htrailing, hskip⟩
  · have heq' : r'.rest = lay ++ (b :: bs ++ q) := by rw [h.rest, heq, List.append_assoc]
    rw [hskip, skip_layout heq' hlay hstarts]
    exact h.eat heq
  · have hq : q = [] := by
      by_contra hq
      rw [hskip] at hs
      exact hs hq (rest_eat (List.append_nil _).symm)
    have hr' : r'.rest = r.rest := by rw [h.rest, hq, List.append_nil]
    rw [hskip, skip_trailing (hr' ▸ htrailing), hr']
    exact h.eat (List.append_nil _).symm

theorem Reader.Along.takeWhile (h : r.Along q r') (hs : (Microlisp.advanceWhile p r.rest r).Sees q) :
    r'.rest.takeWhile p = r.rest.takeWhile p := by
  rw [h.rest]
  by_cases hq : q = []
  · rw [hq, List.append_nil]
  · have hdrop : r.rest.dropWhile p ≠ [] := rest_advanceWhile ▸ hs hq
    rw [List.takeWhile_append, if_neg]
    intro hlen
    have hall := congrArg List.length (List.takeWhile_append_dropWhile (p := p) (l := r.rest))
    rw [List.length_append, hlen] at hall
    exact hdrop (List.eq_nil_of_length_eq_zero (by omega))

theorem Reader.Along.advanceWhile (h : r.Along q r') (hs : (Microlisp.advanceWhile p r.rest r).Sees q) :
    (Microlisp.advanceWhile p r.rest r).Along q (Microlisp.advanceWhile p r'.rest r') := by
  rw [advanceWhile_eat, advanceWhile_eat, h.takeWhile hs]
  exact h.eat List.takeWhile_append_dropWhile.symm

theorem Reader.Along.peek2 (h : r.Along q r') (hs : r.advance.Sees q) : r'.peek2 = r.peek2 := by
  unfold Reader.peek2
  rw [h.rest]
  by_cases hq : q = []
  · rw [hq, List.append_nil]
  · have hne := hs hq
    cases hr : r.rest with
    | nil =>
      rw [advance_eq_self hr] at hne
      exact absurd hr hne
    | cons b bs =>
      rw [rest_advance hr] at hne
      cases bs with
      | nil => exact absurd rfl hne
      | cons b' bs => rfl

/-- The digits, and the reader past them. -/
theorem readDigits_along (bs : Bytes) (r r' : Reader) (value : Int) (any : Bool) (hr : r.rest = bs) (h : r.Along q r')
    (hs : (readDigits bs r value any).2.2.Sees q) :
    (readDigits r'.rest r' value any).1 = (readDigits bs r value any).1 ∧
      (readDigits r'.rest r' value any).2.1 = (readDigits bs r value any).2.1 ∧
      (readDigits bs r value any).2.2.Along q (readDigits r'.rest r' value any).2.2 := by
  induction bs generalizing r r' value any with
  | nil =>
    have hq : q = [] := by
      by_contra hq
      exact hs hq hr
    subst hq
    rw [h.rest, hr]
    exact ⟨rfl, rfl, h⟩
  | cons b bs ih =>
    have hr' : r'.rest = b :: (bs ++ q) := by rw [h.rest, hr, List.cons_append]
    have hsees : r.Sees q := sees_of_peek (peek_of_rest hr)
    have hnext := h.advance hsees
    rw [hr']
    simp only [readDigits] at hs ⊢
    split at hs
    · rename_i hdigit
      simp only [if_pos hdigit]
      cases hsum : (int64Checked (value * 10)).bind fun multiplied =>
        int64Checked (multiplied + ((b - ch '0').toNat : Int)) with
      | none =>
        simp only [hsum] at hs ⊢
        refine ⟨trivial, trivial, ?_⟩
        rw [← rest_advance hr']
        rw [← rest_advance hr] at hs ⊢
        exact hnext.advanceWhile hs
      | some added =>
        simp only [hsum] at hs ⊢
        have hloop := ih r.advance r'.advance added true (rest_advance hr) hnext hs
        rwa [rest_advance hr'] at hloop
    · rename_i hdigit
      simp only [if_neg hdigit]
      exact ⟨trivial, trivial, h⟩

end Along

/-! ## Reading -/

/-- Where there is more text, the parser takes something, and does not come to the end. -/
def Settled {β : Type} (q : Bytes) (p : Parse (β × Reader)) : Prop := q ≠ [] → ∃ y r', p = .ok (y, r') ∧ r'.rest ≠ []

/-- The programs end alike but for the recorded error, with the same value, and along one text;
the first one, where there is more text, at the parser's place. Nothing is said where the first
one runs out of its count. -/
def ReadsAlong {α β γ : Type} (q : Bytes) (out : α → γ × Reader) (p : Parse (β × Reader)) (m m' : ML α) : Prop :=
  Settled q p → ∀ s t, s.SameButLine t → RelatedAt (· = .timeout)
    (fun a b u v => (out b).1 = (out a).1 ∧ (out a).2.Along q (out b).2 ∧ (q ≠ [] → ∃ y, p = .ok (y, (out a).2)) ∧
      u.SameButLine v)
    State.SameButLine m m' s t

section Rules
variable {α α' β β' γ γ' δ : Type} {q : Bytes} {out : α → γ × Reader} {out' : α' → γ' × Reader}
    {p p' : Parse (β × Reader)}
  {m m' n n' : ML α} {r r' : Reader}

theorem settled_refuse {l k : Nat} {message : Bytes} {e : Status}
    (h : Settled q (refuse l k message e : Parse (β × Reader))) : q = [] := by
  by_contra hq
  obtain ⟨_, _, ⟨⟩, _⟩ := h hq

theorem Settled.of_bind {f : β × Reader → Parse (β' × Reader)} (h : Settled q (p >>= f)) (hq : q ≠ []) :
    ∃ y r, p = .ok (y, r) ∧ Settled q (f (y, r)) := by
  obtain ⟨y', r', hp, hr'⟩ := h hq
  cases p with
  | error x => cases hp
  | ok x => exact ⟨x.1, x.2, rfl, fun _ => ⟨y', r', hp, hr'⟩⟩

theorem Settled.sees {y : β} (h : Settled q (.ok (y, r))) : r.Sees q := by
  intro hq
  obtain ⟨_, _, ⟨⟩, hr⟩ := h hq
  exact hr

namespace ReadsAlong

theorem raise {l k l' k' : Nat} {message : Bytes} {e : Status} (hk : k' = k) :
    ReadsAlong q out p (Microlisp.raise l k message e) (Microlisp.raise l' k' message e) := by
  subst hk
  rintro - s _ ⟨x, rfl⟩
  exact relatedAt_modify (relatedAt_fail ⟨_, rfl⟩)

theorem timeout : ReadsAlong q out p (Prog.timeout : ML α) m' := fun _ _ _ _ => relatedAt_of_left rfl rfl

theorem ite {b : Prop} [Decidable b] (h : b → ReadsAlong q out p m m') (h' : ¬ b → ReadsAlong q out p' n n') :
    ReadsAlong q out (if b then p else p') (if b then m else n) (if b then m' else n') := by
  by_cases hb : b
  · simpa only [if_pos hb] using h hb
  · simpa only [if_neg hb] using h' hb

/-- A test that the parser does not make. -/
theorem test {b : Prop} [Decidable b] (h : b → ReadsAlong q out p m m') (h' : ¬ b → ReadsAlong q out p n n') :
    ReadsAlong q out p (if b then m else n) (if b then m' else n') := by
  by_cases hb : b
  · simpa only [if_pos hb] using h hb
  · simpa only [if_neg hb] using h' hb

/-- What the parser refuses does not matter. -/
theorem refused {l k : Nat} {message : Bytes} {e : Status} (h : ReadsAlong q out p m m') :
    ReadsAlong q out (refuse l k message e : Parse (β' × Reader)) m m' := by
  intro hset s t hst
  have hq := settled_refuse hset
  apply (h (fun hne => absurd hq hne) s t hst).mono _ fun _ _ hE => hE
  rintro a b u v ⟨hval, halong, -, huv⟩
  exact ⟨hval, halong, fun hne => absurd hq hne, huv⟩

theorem orRefused {b : Prop} [Decidable b] {l k : Nat} {message : Bytes} {e : Status} (h : ReadsAlong q out p m m') :
    ReadsAlong q out (if b then refuse l k message e else p) m m' := by
  by_cases hb : b
  · simpa only [if_pos hb] using h.refused
  · rwa [if_neg hb]

/-- What the parser settles may be used. -/
theorem of_settled (h : Settled q p → ReadsAlong q out p m m') : ReadsAlong q out p m m' := fun hset => h hset hset

/-- A call that does not read. -/
theorem call {k k' : δ → ML α} {x x' : ML δ} (hx : Lineless (· = .timeout) (fun _ => False) x x')
    (hk : ∀ d, ReadsAlong q out p (k d) (k' d)) :
    ReadsAlong q out p (x >>= k) (x' >>= k') := by
  intro hset s t hst
  apply (SimAt.relatedAt (hx s t hst)).bind
  rintro d _ u v ⟨rfl, huv⟩
  exact hk d hset u v huv

theorem int64Op {k k' : Int → ML α} {x : Int} (hk : ReadsAlong q out p (k x) (k' x)) :
    ReadsAlong q out p (Microlisp.int64Op x >>= k) (Microlisp.int64Op x >>= k') := by
  intro hset s t hst
  have hx : RelatedAt (· = .timeout) (fun a b u v => a = x ∧ b = x ∧ u.SameButLine v) State.SameButLine
      (Microlisp.int64Op x) (Microlisp.int64Op x) s t := by
    by_cases hfits : int64Min ≤ x ∧ x ≤ int64Max
    · simp only [Microlisp.int64Op, int64Checked, if_pos hfits]
      exact ⟨rfl, rfl, hst⟩
    · simp only [Microlisp.int64Op, int64Checked, if_neg hfits]
      exact .inr ⟨rfl, nofun⟩
  apply hx.bind
  rintro _ _ u v ⟨rfl, rfl, huv⟩
  exact hk hset u v huv

theorem onErr {g : State → State} (h : ReadsAlong q out p m m') (hg : ∀ s t, s.SameButLine t →
    (g s).SameButLine (g t)) :
    ReadsAlong q out p (m.onErr g) (m'.onErr g) :=
  fun hset s t hst => (h hset s t hst).onErr hg

theorem restoring {sp : Nat} (h : ReadsAlong q out p m m') :
    ReadsAlong q out p (m.onErr (mlGcRestore sp)) (m'.onErr (mlGcRestore sp)) := by
  apply h.onErr
  rintro s _ ⟨e, rfl⟩
  exact ⟨e, rfl⟩

/-- One part of the text after another. `y` is any value that the parser may give. -/
theorem bind {f : β × Reader → Parse (β' × Reader)} {k k' : α → ML α'} (y : β) (h : ReadsAlong q out p m m')
    (hback : ∀ y r, Settled q (f (y, r)) → r.Sees q)
    (hk : ∀ y a b, (out b).1 = (out a).1 → (out a).2.Along q (out b).2 →
    ReadsAlong q out' (f (y, (out a).2)) (k a) (k' b)) :
    ReadsAlong q out' (p >>= f) (m >>= k) (m' >>= k') := by
  intro hset s t hst
  have hfirst : Settled q p := by
    intro hq
    obtain ⟨y, r, hp, hrest⟩ := hset.of_bind hq
    exact ⟨y, r, hp, hback y r hrest hq⟩
  apply (h hfirst s t hst).bind
  rintro a b u v ⟨hval, halong, hplace, huv⟩
  by_cases hq : q = []
  · apply (hk y a b hval halong (fun hne => absurd hq hne) u v huv).mono _ fun _ _ h => h
    rintro a' b' u' v' ⟨hval', halong', -, huv'⟩
    exact ⟨hval', halong', fun hne => absurd hq hne, huv'⟩
  · obtain ⟨z, hz⟩ := hplace hq
    have hpf : p >>= f = f (z, (out a).2) := by
      rw [hz]
      rfl
    rw [hpf] at hset ⊢
    exact hk z a b hval halong hset u v huv

/-- The parser gives another value. -/
theorem given {f : β → β'} (h : ReadsAlong q out p m m') : ReadsAlong q out (p >>= fun x => .ok (f x.1, x.2)) m m' := by
  intro hset s t hst
  have hp : Settled q p := by
    intro hq
    obtain ⟨y, r, hp, hset⟩ := hset.of_bind hq
    exact ⟨y, r, hp, hset.sees hq⟩
  apply (h hp s t hst).mono _ fun _ _ hE => hE
  rintro a b u v ⟨hval, halong, hplace, huv⟩
  refine ⟨hval, halong, fun hq => ?_, huv⟩
  obtain ⟨y, hy⟩ := hplace hq
  rw [hy]
  exact ⟨f y, rfl⟩

end ReadsAlong

/-- What is returned is a value, with the reader past it. -/
abbrev ReadsValue (q : Bytes) (p : Parse (β × Reader)) (m m' : ML (γ × Reader)) : Prop :=
  ReadsAlong q (fun x => x) p m m'

theorem readsValue_pure {y : β} {v : γ} (h : r.Sees q → r.Along q r') :
    ReadsValue q (.ok (y, r)) (pure (v, r)) (pure (v, r')) :=
  fun hset _ _ hst => relatedAt_pure ⟨rfl, h hset.sees, fun _ => ⟨_, rfl⟩, hst⟩

/-- Only the reader is returned. -/
abbrev ReadsPast (q : Bytes) (p : Parse (β × Reader)) (m m' : ML Reader) : Prop :=
  ReadsAlong q (fun r => ((), r)) p m m'

theorem readsPast_pure {y : β} (h : r.Sees q → r.Along q r') : ReadsPast q (.ok (y, r)) (pure r) (pure r') :=
  fun hset _ _ hst => relatedAt_pure ⟨rfl, h hset.sees, fun _ => ⟨_, rfl⟩, hst⟩

end Rules

/-! ## Tokens -/

section Tokens
open Reader
variable {q : Bytes} {r r' : Reader} {c : Config} {b : UInt8} {l l' k : Nat}

/-- Where the parser refuses to go on at the end, the readers see the same there. -/
theorem Reader.sees_of_settled {β : Type} {p : Parse (β × Reader)} (hset : Settled q p)
    (hp : r.peek = none → ∃ l k message e, p = refuse l k message e) : r.Sees q := by
  intro hq hr
  obtain ⟨l, k, message, e, rfl⟩ := hp (peek_eq_none.2 hr)
  exact hq (settled_refuse hset)

theorem readEscape_along (h : r.Along q r') :
    ReadsValue q (parseEscape l k r) (readEscape l k r) (readEscape l' k r') := by
  intro hset
  have hsees : r.Sees q := by
    apply sees_of_settled hset
    intro hpeek
    rw [parseEscape, hpeek]
    exact ⟨_, _, _, _, rfl⟩
  revert hset
  rw [parseEscape, readEscape, readEscape, h.peek hsees]
  cases hpeek : r.peek with
  | none => exact ReadsAlong.raise rfl
  | some esc =>
    have hnext := h.advance hsees
    have hbyte : ∀ x : UInt8, ReadsValue q (.ok (x, r.advance)) (pure (x, r.advance)) (pure (x, r'.advance)) :=
      fun _ => readsValue_pure fun _ => hnext
    -- six escapes that name one byte, and the hex escape
    iterate 6 refine ReadsAlong.ite (fun _ => hbyte _) fun _ => ?_
    apply ReadsAlong.ite _ fun _ => ReadsAlong.raise hnext.column
    dsimp only
    intro _ hset
    have hhi : r.advance.Sees q := by
      apply sees_of_settled hset
      intro hpeek
      rw [hpeek, Option.bind_none]
      exact ⟨_, _, _, _, rfl⟩
    have hlo : r.advance.advance.Sees q := by
      apply sees_of_settled hset
      intro hpeek
      rw [hpeek, Option.bind_none]
      cases r.advance.peek.bind hexDigit <;> exact ⟨_, _, _, _, rfl⟩
    revert hset
    rw [hnext.peek hhi, (hnext.advance hhi).peek hlo]
    change ReadsValue q _ _ _
    have hlast := (hnext.advance hhi).advance hlo
    cases r.advance.peek.bind hexDigit with
    | none => exact ReadsAlong.raise hlast.column
    | some h1 =>
      cases r.advance.advance.peek.bind hexDigit with
      | none => exact ReadsAlong.raise hlast.column
      | some h2 => exact readsValue_pure fun _ => hlast

theorem parseStringLoop_sees {n : Nat} {buf : Bytes} (hset : Settled q (parseStringLoop l k n r buf)) : r.Sees q := by
  cases n with
  | zero =>
    intro hq
    obtain ⟨_, _, ⟨⟩, _⟩ := hset hq
  | succ n =>
    apply sees_of_settled hset
    intro hpeek
    rw [parseStringLoop, hpeek]
    exact ⟨_, _, _, _, rfl⟩

theorem readStringLoop_along (n k₁ : Nat) (r r' : Reader) (buf buf' : Bytes) (cap : Nat) (h : r.Along q r') :
    ReadsValue q (parseStringLoop l k n r buf') (readStringLoop c l k n r buf cap)
      (readStringLoop c l' k (n + k₁) r' buf cap) := by
  induction n generalizing r r' buf buf' cap with
  | zero => exact .timeout
  | succ n ih =>
    apply ReadsAlong.of_settled
    intro hset
    have hsees := parseStringLoop_sees hset
    rw [Nat.add_right_comm, parseStringLoop, readStringLoop, readStringLoop, h.peek hsees]
    cases r.peek with
    | none => exact ReadsAlong.raise rfl
    | some b =>
      have hnext := h.advance hsees
      have hback : ∀ y r, Settled q (parseStringLoop l k n r (buf' ++ [y])) → r.Sees q :=
        fun _ _ => parseStringLoop_sees
      -- the buffer grows before the byte is pushed
      have hpush : ∀ (y : UInt8) (x x' : UInt8 × Reader), x'.1 = x.1 → x.2.Along q x'.2 →
          ReadsValue q (parseStringLoop l k n x.2 (buf' ++ [y])) (do
            let cap ← if buf.length = cap then do
                rawAllocOrFail c (cap * 2)
                pure (cap * 2)
              else pure cap
            readStringLoop c l k n x.2 (buf ++ [x.1]) cap) (do
            let cap ← if buf.length = cap then do
                rawAllocOrFail c (cap * 2)
                pure (cap * 2)
              else pure cap
            readStringLoop c l' k (n + k₁) x'.2 (buf ++ [x'.1]) cap) := by
        rintro y ⟨x, r⟩ ⟨_, r'⟩ rfl halong
        apply ReadsAlong.test
        · exact fun _ => .call lineless_rawAllocOrFail fun _ => .call (.pure _) fun cap => ih _ _ _ _ cap halong
        · exact fun _ => .call (.pure _) fun cap => ih _ _ _ _ cap halong
      apply ReadsAlong.ite (fun _ => readsValue_pure fun _ => hnext)
      intro _
      apply ReadsAlong.ite
      · exact fun _ => (readEscape_along hnext).bind b hback hpush
      · exact fun _ => (readsValue_pure fun _ => hnext).bind b hback hpush

theorem readString_along (hdue : ∀ s l, c.collectDue (s.onLine l) = c.collectDue s) (h : r.Along q r')
    (hb : r.peek = some b) :
    ReadsValue q (parseString r) (readString c r) (readString c r') := by
  have hnext := h.advance (sees_of_peek hb)
  have hlen : r'.advance.rest.length + 1 = r.advance.rest.length + 1 + q.length := by
    rw [hnext.rest, List.length_append, Nat.add_right_comm]
  apply ReadsAlong.call lineless_rawAllocOrFail
  intro _
  rw [hlen, h.column]
  apply (readStringLoop_along _ _ _ _ [] [] 32 hnext).bind []
  · exact fun _ _ hset => hset.sees
  · rintro bytes ⟨buf, r⟩ ⟨_, r'⟩ rfl halong
    exact .call (lineless_gcAlloc hdue) fun _ => readsValue_pure fun _ => halong

theorem readHash_along (h : r.Along q r') (hb : r.peek = some b) :
    ReadsValue q (parseHash r) (readHash r) (readHash r') := by
  apply ReadsAlong.of_settled
  intro hset
  have hnext := h.advance (sees_of_peek hb)
  have hlast : r.advance.advance.Sees q := by
    intro hq
    obtain ⟨_, _, hp, hrest⟩ := hset hq
    dsimp only [parseHash] at hp
    split at hp
    · cases hp
      exact hrest
    · split at hp
      · cases hp
        exact hrest
      · cases hp
  have hsees := hlast.of_advance
  dsimp only [parseHash, readHash]
  rw [hnext.peek hsees, (hnext.advance hsees).peek hlast]
  have hend : ∀ (d : Datum) (v : Val), ReadsValue q (.ok (d, r.advance.advance)) (pure (v, r.advance.advance))
      (pure (v, r'.advance.advance)) := fun _ _ => readsValue_pure fun _ => hnext.advance hsees
  apply ReadsAlong.ite (fun _ => hend _ _)
  intro _
  exact .ite (fun _ => hend _ _) fun _ => .raise h.column

theorem readNumber_along {sign : Int} (h : r.Along q r') :
    ReadsValue q (parseNumber sign r) (readNumber sign r) (readNumber sign r') := by
  apply ReadsAlong.of_settled
  intro hset
  have hsees : (readDigits r.rest r 0 false).2.2.Sees q := by
    intro hq
    obtain ⟨_, _, hp, hrest⟩ := hset hq
    unfold parseNumber at hp
    split at hp
    · cases hp
    · rename_i value any r₁ hdigits
      rw [hdigits]
      dsimp only at hp
      split at hp
      · cases hp
      split at hp
      · cases hp
      generalize (if sign < 0 then -value else value) = x at hp
      split at hp
      · cases hp
      · cases hp
        exact hrest
  obtain ⟨hvalue, hany, halong⟩ := readDigits_along r.rest r r' 0 false rfl h hsees
  unfold parseNumber readNumber
  rcases hdigits : readDigits r.rest r 0 false with ⟨value, any, r₁⟩
  rcases hdigits' : readDigits r'.rest r' 0 false with ⟨value', any', r₁'⟩
  rw [hdigits, hdigits'] at hvalue hany halong
  rw [hdigits] at hsees
  dsimp only at hvalue hany halong hsees
  subst value' any'
  cases value with
  | none => exact ReadsAlong.raise h.column
  | some value =>
    dsimp only
    rw [halong.peek hsees]
    apply ReadsAlong.ite (fun _ => .raise h.column)
    intro _
    apply ReadsAlong.ite (fun _ => .raise halong.column)
    intro _
    have hfix : ∀ x : Int, ReadsValue q (if x < mFixMin || x > mFixMax then
        refuse r.line r.column (ascii "integer literal exceeds 60-bit fixnum range") .errOverflow
      else .ok (Datum.fix x, r₁)) (if x < mFixMin || x > mFixMax then
        raise r.line r.column (ascii "integer literal exceeds 60-bit fixnum range") .errOverflow
      else do
        let v ← makeFix x
        pure (v, r₁)) (if x < mFixMin || x > mFixMax then
        raise r'.line r'.column (ascii "integer literal exceeds 60-bit fixnum range") .errOverflow
      else do
        let v ← makeFix x
        pure (v, r₁')) := by
      intro x
      apply ReadsAlong.ite (fun _ => .raise h.column)
      exact fun _ => .call makeFix_sim fun _ => readsValue_pure fun _ => halong
    by_cases hsign : sign < 0
    · simp only [if_pos hsign]
      exact .int64Op (hfix _)
    · simp only [if_neg hsign]
      exact hfix value

theorem readSymbol_along (hdue : ∀ s l, c.collectDue (s.onLine l) = c.collectDue s) (h : r.Along q r') :
    ReadsValue q (parseSymbol r) (readSymbol c r) (readSymbol c r') := by
  apply ReadsAlong.of_settled
  intro hset
  have hname : symbolBytes r'.rest = symbolBytes r.rest := h.takeWhile hset.sees
  unfold readSymbol
  rw [hname]
  exact .call ((lockstep_line hdue).names.intern _) fun _ => readsValue_pure h.advanceWhile

end Tokens

/-! ## Lists -/

section Lists
open Reader
variable {q : Bytes} {r r' : Reader} {c : Config} {b : UInt8} {n : Nat} {elems : List Datum}
  {pf : Reader → Parse (Option Datum × Reader)} {rf rf' : Reader → ML (Val × Reader)}

/-- A form takes something where there is something. -/
def Takes (pf : Reader → Parse (Option Datum × Reader)) : Prop :=
  ∀ r y r', pf r = .ok (y, r') → r.rest ≠ [] → r'.rest.length < r.rest.length

theorem parseListLoop_sees (hset : Settled q (parseListLoop pf n elems r)) : (skipWsAndComments r).Sees q := by
  cases n with
  | zero =>
    intro hq
    obtain ⟨_, _, ⟨⟩, _⟩ := hset hq
  | succ n =>
    apply sees_of_settled hset
    intro hpeek
    rw [parseListLoop]
    dsimp only
    rw [hpeek]
    exact ⟨_, _, _, _, rfl⟩

/-- A dot does not end the text: it would be a symbol, and the list not closed. -/
theorem parseListLoop_peek2 (hpf : Takes pf) (hset : Settled q (parseListLoop pf (n + 1) elems r))
    (hpeek : (skipWsAndComments r).peek = some (ch '.')) : (skipWsAndComments r).advance.Sees q := by
  intro hq hr
  obtain ⟨bs, hrest⟩ := rest_of_peek hpeek
  rw [rest_advance hrest] at hr
  subst hr
  have helem : ElemAt (skipWsAndComments r) := by
    refine ⟨_, hpeek, by decide, ?_⟩
    rw [hrest]
    rintro ⟨_, _, ⟨⟩, _⟩
  rw [parseListLoop_elem n elems helem] at hset
  obtain ⟨y, r₁, hp, hset⟩ := hset.of_bind hq
  have hless := hpf _ _ _ hp (by rw [hrest]; exact nofun)
  rw [hrest] at hless
  apply skip_rest_ne_nil (parseListLoop_sees hset hq)
  exact List.eq_nil_of_length_eq_zero (by simpa using hless)

theorem readListLoop_along (hdue : ∀ s l, c.collectDue (s.onLine l) = c.collectDue s) (hpf : Takes pf)
    (hrf : ∀ r r', r.Along q r' → ReadsValue q (pf r) (rf r) (rf' r')) {sp : Nat} {head : Val} (n k : Nat)
    (elems : List Datum)
    (tail : Val) (r r' : Reader) (h : r.Along q r') :
    ReadsPast q (parseListLoop pf n elems r) (readListLoop c rf sp head n tail r)
      (readListLoop c rf' sp head (n + k) tail r') := by
  have hlock : Lockstep (· = .timeout) (fun _ => False) c c (· = ·) State.SameButLine := (lockstep_line hdue).toLockstep
  induction n generalizing elems tail r r' with
  | zero => exact .timeout
  | succ n ih =>
    apply ReadsAlong.of_settled
    intro hset
    have hsees := parseListLoop_sees hset
    have hskip := h.skip hsees
    have hpeek2 := parseListLoop_peek2 hpf hset
    rw [Nat.add_right_comm, parseListLoop, readListLoop, readListLoop]
    dsimp only
    rw [hskip.peek hsees]
    cases hpeek : (skipWsAndComments r).peek with
    | none => exact .restoring (.raise hskip.column)
    | some b =>
      have hnext := hskip.advance hsees
      have hdot : (b = ch '.' && (skipWsAndComments r').peek2.isSome && isTerminator (skipWsAndComments r').peek2)
          = (b = ch '.' && (skipWsAndComments r).peek2.isSome && isTerminator (skipWsAndComments r).peek2) := by
        by_cases hb : b = ch '.'
        · rw [hskip.peek2 (hpeek2 (hb ▸ hpeek))]
        · simp only [hb, decide_false, Bool.false_and]
      dsimp only
      rw [hdot]
      apply ReadsAlong.ite (fun _ => readsPast_pure fun _ => hnext)
      intro _
      apply ReadsAlong.ite
      · intro _
        apply ReadsAlong.test (fun _ => .restoring (.raise hnext.column))
        intro _
        apply ReadsAlong.orRefused
        have hclose : ∀ {d r}, Settled q (if (skipWsAndComments r).peek ≠ some (ch ')') then
            refuse (skipWsAndComments r).line (skipWsAndComments r).column
              (ascii "expected `)` after dotted-pair tail form") .errReadSyntax
          else .ok (d, (skipWsAndComments r).advance) : Parse (Datum × Reader)) → (skipWsAndComments r).Sees q := by
          intro d r hset
          apply sees_of_settled hset
          intro hpeek
          rw [hpeek, if_pos (by simp)]
          exact ⟨_, _, _, _, rfl⟩
        apply ((hrf _ _ hnext).restoring).bind none
        · exact fun y r hset => (past_skip r).sees (hclose hset)
        · rintro y ⟨v, r⟩ ⟨_, r'⟩ rfl halong
          apply ReadsAlong.call (setCdr_lockstep hlock)
          intro _
          apply ReadsAlong.of_settled
          intro hset
          have hsees := hclose hset
          have hskip := halong.skip hsees
          dsimp only
          rw [hskip.peek hsees]
          exact .ite (fun _ => .restoring (.raise hskip.column)) fun _ => readsPast_pure fun _ => hskip.advance hsees
      · intro _
        apply ((hrf _ _ hskip).restoring).bind none
        · exact fun y r hset => (past_skip r).sees (parseListLoop_sees hset)
        · rintro y ⟨v, r⟩ ⟨_, r'⟩ rfl halong
          apply ReadsAlong.call (onErr_restore_lockstep hlock rfl lineless_mlGcProtect)
          intro _
          apply ReadsAlong.call
            (onErr_restore_lockstep hlock rfl ((lineless_gcAlloc hdue).andThen fun s t => hlock.unprotect 1 s t))
          intro cell
          exact .call (setCdr_lockstep hlock) fun _ => ih _ _ _ _ halong

theorem parseList_sees {limit : Nat} (hset : Settled q (parseList limit pf r)) :
    (skipWsAndComments { r with depth := r.depth + 1 }).Sees q := by
  apply sees_of_settled hset
  intro hpeek
  unfold parseList
  split
  · exact ⟨_, _, _, _, rfl⟩
  · dsimp only
    rw [hpeek, if_neg nofun]
    simp only [parseListLoop, skip_skip, hpeek]
    exact ⟨_, _, _, _, rfl⟩

theorem readList_along (hdue : ∀ s l, c.collectDue (s.onLine l) = c.collectDue s) (hpf : Takes pf)
    (hrf : ∀ r r', r.Along q r' → ReadsValue q (pf r) (rf r) (rf' r')) (h : r.Along q r') :
    ReadsValue q (parseList c.maxReadDepth pf r) (readList c rf r) (readList c rf' r') := by
  have hlock : Lockstep (· = .timeout) (fun _ => False) c c (· = ·) State.SameButLine := (lockstep_line hdue).toLockstep
  apply ReadsAlong.of_settled
  intro hset
  have hsees := parseList_sees hset
  have hdeep : Reader.Along q { r with depth := r.depth + 1 } { r' with depth := r'.depth + 1 } := by
    rw [h.depth]
    exact h.setDepth
  have hskip := hdeep.skip hsees
  unfold parseList readList
  rw [h.depth] at hskip ⊢
  apply ReadsAlong.ite (fun _ => .raise h.column)
  intro _
  dsimp only
  rw [hskip.peek hsees]
  apply ReadsAlong.ite
  · intro _
    have hnext := hskip.advance hsees
    apply readsValue_pure
    rw [hnext.depth]
    exact fun _ => hnext.setDepth
  · intro _
    have hlen : (skipWsAndComments { r' with depth := r.depth + 1 }).rest.length + 1
        = (skipWsAndComments { r with depth := r.depth + 1 }).rest.length + 1 + q.length := by
      rw [hskip.rest, List.length_append, Nat.add_right_comm]
    apply ReadsAlong.call (lineless_gets fun _ _ => rfl)
    intro sp
    apply ReadsAlong.call (lineless_gcAlloc hdue)
    intro head
    apply ReadsAlong.call lineless_mlGcProtect
    intro _
    rw [hlen]
    apply (readListLoop_along hdue hpf hrf _ _ [] _ _ _ hskip).bind Datum.nil
    · exact fun _ _ hset => hset.sees
    · rintro d r r' - halong
      apply ReadsAlong.call (cdr_lockstep hlock)
      intro out
      apply ReadsAlong.call (lineless_modify fun _ l => ⟨l, rfl⟩)
      intro _
      apply readsValue_pure
      rw [halong.depth]
      exact fun _ => halong.setDepth

theorem readQuote_along (hdue : ∀ s l, c.collectDue (s.onLine l) = c.collectDue s)
    (hrf : ∀ r r', r.Along q r' → ReadsValue q (pf r) (rf r) (rf' r')) (h : r.Along q r') (hb : r.peek = some b) :
    ReadsValue q (parseQuote pf r) (readQuote c rf r) (readQuote c rf' r') := by
  have hlock : Lockstep (· = .timeout) (fun _ => False) c c (· = ·) State.SameButLine := (lockstep_line hdue).toLockstep
  have hnext := h.advance (sees_of_peek hb)
  apply (hrf _ _ hnext).bind none
  · intro y r hset
    cases y with
    | none => exact fun hq => absurd (settled_refuse hset) hq
    | some d => exact hset.sees
  · rintro y ⟨_, r⟩ ⟨form, r'⟩ rfl halong
    apply ReadsAlong.test (fun _ => .raise h.column)
    intro _
    have hquote : ∀ d : Datum, ReadsValue q (.ok (d, r)) (do
        let sp ← mlGcSavepoint
        mlGcProtect c form
        let inner ← (mlGcAllocPair c form mvNil).onErr (mlGcRestore sp)
        modify (mlGcUnprotect 1)
        mlGcProtect c inner
        let out ← (mlGcAllocPair c c.symQuote inner).andThen (mlGcRestore sp)
        pure (out, r)) (do
        let sp ← mlGcSavepoint
        mlGcProtect c form
        let inner ← (mlGcAllocPair c form mvNil).onErr (mlGcRestore sp)
        modify (mlGcUnprotect 1)
        mlGcProtect c inner
        let out ← (mlGcAllocPair c c.symQuote inner).andThen (mlGcRestore sp)
        pure (out, r')) := by
      intro d
      apply ReadsAlong.call (lineless_gets fun _ _ => rfl)
      intro sp
      apply ReadsAlong.call lineless_mlGcProtect
      intro _
      apply ReadsAlong.call (onErr_restore_lockstep hlock rfl (lineless_gcAlloc hdue))
      intro inner
      apply ReadsAlong.call (lineless_modify fun _ l => ⟨l, rfl⟩)
      intro _
      apply ReadsAlong.call lineless_mlGcProtect
      intro _
      exact .call (andThen_restore_lockstep hlock rfl (lineless_gcAlloc hdue)) fun _ => readsValue_pure fun _ => halong
    cases y with
    | none => exact .refused (hquote .nil)
    | some d => exact hquote _

end Lists

/-! ## Forms -/

section Forms
open Reader
variable {q : Bytes} {r r' : Reader} {c : Config} {limit n : Nat}

theorem parseForm_takes : Takes (parseForm limit n) := by
  intro r y r' hp hne
  cases y with
  | none =>
    obtain ⟨-, hpeek⟩ := parseForm_none hp
    rw [peek_eq_none.1 hpeek]
    exact List.length_pos_of_ne_nil hne
  | some d => exact Nat.lt_of_lt_of_le (parseForm_took n r d r' hp).2.length_lt (past_skip r).length_le

theorem parseForm_sees (hset : Settled q (parseForm limit n r)) : (skipWsAndComments r).Sees q := by
  intro hq hr
  obtain ⟨y, r', hp, hrest⟩ := hset hq
  cases y with
  | none =>
    obtain ⟨-, hpeek⟩ := parseForm_none hp
    exact hrest (peek_eq_none.1 hpeek)
  | some d =>
    have hless := (parseForm_took n r d r' hp).2.length_lt
    rw [hr] at hless
    exact absurd hless (Nat.not_lt_zero _)

/-- A sign does not end the text. -/
theorem parseForm_peek2 (hset : Settled q (parseForm limit n r)) : (skipWsAndComments r).advance.Sees q := by
  intro hq hr
  obtain ⟨y, r', hp, hrest⟩ := hset hq
  cases y with
  | none =>
    obtain ⟨-, hpeek⟩ := parseForm_none hp
    exact hrest (peek_eq_none.1 hpeek)
  | some d =>
    have hless := (parseForm_took n r d r' hp).2.length_lt
    have hlast := parseForm_sees hset hq
    cases hskip : (skipWsAndComments r).rest with
    | nil => exact hlast hskip
    | cons b bs =>
      rw [rest_advance hskip] at hr
      rw [hskip, hr] at hless
      exact hrest (List.eq_nil_of_length_eq_zero (by simpa using hless))

theorem readForm_along (hdue : ∀ s l, c.collectDue (s.onLine l) = c.collectDue s) (n k : Nat) (r r' : Reader)
    (h : (skipWsAndComments r).Sees q → (skipWsAndComments r).Along q (skipWsAndComments r')) :
    ReadsValue q (parseForm c.maxReadDepth n r) (readForm c n r) (readForm c (n + k) r') := by
  induction n generalizing r r' with
  | zero => exact .timeout
  | succ n ih =>
    apply ReadsAlong.of_settled
    intro hset
    have hsees := parseForm_sees hset
    have hpeek2 := parseForm_peek2 hset
    have hskip := h hsees
    have hinner : ∀ r r', r.Along q r' → ReadsValue q (parseForm c.maxReadDepth n r) (readForm c n r)
        (readForm c (n + k) r') :=
      fun r r' halong => ih r r' halong.skip
    rw [Nat.add_right_comm, parseForm, readForm, readForm]
    dsimp only
    rw [hskip.peek hsees]
    cases hpeek : (skipWsAndComments r).peek with
    | none => exact readsValue_pure fun _ => hskip
    | some b =>
      have hnext := hskip.advance hsees
      have hsymbol := readSymbol_along hdue hskip
      apply ReadsAlong.given
      unfold parseDatum
      apply ReadsAlong.ite (fun _ => readList_along hdue parseForm_takes hinner hnext)
      intro _
      apply ReadsAlong.ite (fun _ => .raise hskip.column)
      intro _
      apply ReadsAlong.ite (fun _ => readQuote_along hdue hinner hskip hpeek)
      intro _
      apply ReadsAlong.ite (fun _ => readString_along hdue hskip hpeek)
      intro _
      apply ReadsAlong.ite (fun _ => readHash_along hskip hpeek)
      intro _
      apply ReadsAlong.ite (fun _ => readNumber_along hskip)
      intro _
      rw [hskip.peek2 hpeek2]
      by_cases hsign : b = ch '+' || b = ch '-'
      · simp only [hsign, Bool.true_and, if_true]
        exact .ite (fun _ => readNumber_along hnext) fun _ => hsymbol
      · simp only [hsign, Bool.false_and]
        exact hsymbol

theorem mlRead_along (hdue : ∀ s l, c.collectDue (s.onLine l) = c.collectDue s) (hlen : r.rest.length ≤ r'.rest.length)
    (h : (skipWsAndComments r).Sees q → (skipWsAndComments r).Along q (skipWsAndComments r')) :
    ReadsValue q (parse c.maxReadDepth r) (mlRead c r) (mlRead c r') := by
  obtain ⟨k, hk⟩ := Nat.exists_eq_add_of_le hlen
  unfold parse mlRead
  rw [hk, Nat.add_right_comm]
  exact readForm_along hdue _ _ _ _ h

end Forms

end Microlisp
