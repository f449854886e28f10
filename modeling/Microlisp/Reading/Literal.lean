import Microlisp.Accepts
import Microlisp.Specs
/-!
# Integer literals

`read_number` folds the digits into an `int64_t`, with a check of each operation, then takes
the sign, then checks the range of a fixnum. What it returns is the integer that the literal
denotes, whatever the number of digits.
-/
namespace Microlisp

open Prog Reader

/-- The operations on `int64_t` must have results that fit. -/
abbrev fittingMode : Mode Event :=
  ⟨fun _ => False, fun e => ∀ x, e = .int64 x → int64Min ≤ x ∧ x ≤ int64Max, True, True⟩

section Literal
variable {r : Reader} {c : Config} {s : State} {digits rest : Bytes} {value i : Int} {n : Nat}

/-- All the digits are read, whatever they come to. -/
theorem readDigits_past {any : Bool} (hdigits : ∀ b ∈ digits, isDigit b = true)
    (hrest : ∀ b, rest.head? = some b → isDigit b = false) (hr : r.rest = digits ++ rest) :
    (readDigits (digits ++ rest) r value any).2.2 = r.eat digits := by
  induction digits generalizing r value any with
  | nil =>
    cases rest with
    | nil => rfl
    | cons b rest => simp [readDigits, hrest b rfl]
  | cons b digits ih =>
    have hb := hdigits b (List.mem_cons_self ..)
    have hadv : r.advance.rest = digits ++ rest := rest_advance hr
    have hall : ∀ d ∈ digits, isDigit d = true := fun d hd => hdigits d (List.mem_cons_of_mem _ hd)
    simp only [List.cons_append, readDigits, hb, if_true]
    split
    · rw [← hadv, advanceWhile_of_takeWhile hadv hall hrest]
      rfl
    · rw [ih hall hadv]
      rfl

/-- Too large a number is noticed. -/
theorem readDigits_large {any : Bool} (hdigits : ∀ b ∈ digits, isDigit b = true)
    (hlarge : int64Max < digits.foldl addDigit value) (hsmall : value ≤ int64Max) :
    (readDigits (digits ++ rest) r value any).1 = none := by
  induction digits generalizing r value any with
  | nil => exact absurd hlarge (Int.not_lt.2 hsmall)
  | cons b digits ih =>
    have hb := hdigits b (List.mem_cons_self ..)
    have hall : ∀ d ∈ digits, isDigit d = true := fun d hd => hdigits d (List.mem_cons_of_mem _ hd)
    simp only [List.cons_append, readDigits, hb, if_true]
    split
    · rfl
    · rename_i added hadded
      obtain ⟨multiplied, hmul, hadd⟩ := Option.bind_eq_some_iff.1 hadded
      have hvalue : ∀ {x y : Int}, int64Checked x = some y → y = x ∧ x ≤ int64Max := by
        intro x y hxy
        unfold int64Checked at hxy
        split at hxy
        · rename_i hfits
          cases hxy
          exact ⟨rfl, hfits.2⟩
        · cases hxy
      obtain ⟨rfl, -⟩ := hvalue hmul
      obtain ⟨rfl, hmax⟩ := hvalue hadd
      exact ih hall hlarge hmax

/-- A literal without its sign. -/
theorem readNumber_literal (hi : i = 1 ∨ i = -1) (hne : digits ≠ []) (hdigits : ∀ b ∈ digits, isDigit b = true)
    (hterm : isTerminator rest.head? = true) (hr : r.rest = digits ++ rest) :
    wp fittingMode (readNumber i r) s
      (fun x _ => fitsFixnum (i * digitsValue digits) = true ∧ x = (mlMakeFix (i * digitsValue digits), r.eat digits))
      (fun e _ => ¬ fitsFixnum (i * digitsValue digits) = true ∧ e = .errOverflow) := by
  have hstop : ∀ b, rest.head? = some b → isDigit b = false := fun b => isDigit_of_terminator hterm
  have hpos := digitsValue_nonneg digits
  unfold readNumber
  rw [hr]
  by_cases hlarge : int64Max < digitsValue digits
  · have hnone : (readDigits (digits ++ rest) r 0 false).1 = none := readDigits_large hdigits hlarge (by decide)
    rcases hread : readDigits (digits ++ rest) r 0 false with ⟨value, any, r'⟩
    rw [hread] at hnone
    cases hnone
    have hfits : ¬ fitsFixnum (i * digitsValue digits) = true := by
      intro h
      obtain ⟨hlo, hhi⟩ := fits_iff.1 h
      simp only [int64Max] at hlarge
      rcases hi with rfl | rfl <;> omega
    exact wp_bind (wp_modify (wp_fail ⟨hfits, rfl⟩))
  · have hmax : digitsValue digits ≤ int64Max := Int.not_lt.1 hlarge
    rw [readDigits_of_digits false hdigits hstop (Int.le_refl 0) hmax]
    have hempty : digits.isEmpty = false := by simpa using hne
    have hpeek : isTerminator (r.eat digits).peek = true := by rwa [peek, rest_eat hr]
    have hrange := outOfRange_iff (x := i * digitsValue digits)
    have hmake : wp fittingMode (if i * digitsValue digits < mFixMin || i * digitsValue digits > mFixMax then
          raise r.line r.column (ascii "integer literal exceeds 60-bit fixnum range") .errOverflow
        else do
          let v ← makeFix (i * digitsValue digits)
          pure ((v, r.eat digits) : Val × Reader)) s
        (fun x _ => fitsFixnum (i * digitsValue digits) = true ∧ x = (mlMakeFix (i * digitsValue digits), r.eat digits))
        (fun e _ => ¬ fitsFixnum (i * digitsValue digits) = true ∧ e = .errOverflow) := by
      apply wp_ite
      · exact fun h => wp_bind (wp_modify (wp_fail ⟨hrange.1 h, rfl⟩))
      · intro h
        have hfits := Classical.not_not.1 (fun hn => h (hrange.2 hn))
        exact wp_bind (makeFix_wp (by rintro _ ⟨⟩) (wp_pure ⟨hfits, rfl⟩))
    dsimp only
    rw [if_neg (by simp [hempty]), if_neg (by simp [hpeek])]
    rw [show digits.foldl addDigit 0 = digitsValue digits from rfl]
    rcases hi with rfl | rfl
    · rw [if_neg (by decide)]
      rw [Int.one_mul] at hmake
      rw [Int.one_mul]
      exact wp_bind (wp_pure hmake)
    · rw [if_pos (by decide)]
      have hneg : int64Min ≤ -digitsValue digits ∧ -digitsValue digits ≤ int64Max := by
        simp only [int64Min, int64Max] at hmax ⊢
        omega
      rw [Int.neg_mul, Int.one_mul] at hmake
      rw [Int.neg_mul, Int.one_mul]
      apply wp_bind
      exact int64Op_wp (by rintro _ ⟨⟩; exact hneg) (fun _ => hneg) hmake

/-- Where a form starts with a sign and a digit, or with a digit, it is a number. -/
theorem readForm_number {sign : Bytes} (hsign : (sign, i) ∈ signs) (hne : digits ≠ [])
    (hdigits : ∀ b ∈ digits, isDigit b = true)
    (hr : r.rest = sign ++ (digits ++ rest)) : readForm c (n + 1) r = readNumber i (r.eat sign) := by
  obtain ⟨d, ds, rfl⟩ := List.exists_cons_of_ne_nil hne
  have hd := hdigits d (List.mem_cons_self ..)
  have hplain := not_terminator_of_isDigit hd
  simp only [isTerminator, Bool.or_eq_false_iff, decide_eq_false_iff_not] at hplain
  have hsigned : ∀ b, b = ch '+' ∨ b = ch '-' → i = (if b = ch '-' then -1 else 1) → r.rest = b :: (d :: ds ++ rest) →
      readForm c (n + 1) r = readNumber i r.advance := by
    intro b hb hi hr
    have hskip : skipWsAndComments r = r := by
      apply skip_of_starts
      rw [hr]
      rintro _ ⟨⟩
      rcases hb with rfl | rfl <;> decide
    have hpeek : r.peek = some b := peek_of_rest hr
    have hpeek2 : r.peek2.any isDigit = true := by
      rw [peek2, hr]
      exact hd
    simp only [readForm, hskip, hpeek, hpeek2, hi]
    rcases hb with rfl | rfl <;> rfl
  simp only [signs, List.mem_cons, Prod.mk.injEq, List.not_mem_nil, or_false] at hsign
  rcases hsign with ⟨rfl, rfl⟩ | ⟨rfl, rfl⟩ | ⟨rfl, rfl⟩
  · have hskip : skipWsAndComments r = r := by
      apply skip_of_starts
      rw [hr]
      rintro _ ⟨⟩
      exact ⟨by simpa using hplain.1.1.1.1.1, hplain.1.1.2⟩
    have hpeek : r.peek = some d := peek_of_rest hr
    have hhash : d ≠ ch '#' := by
      rintro rfl
      cases hd
    simp only [readForm, hskip, hpeek]
    rw [if_neg hplain.1.1.1.1.2, if_neg hplain.1.1.1.2, if_neg hplain.2, if_neg hplain.1.2, if_neg hhash, if_pos hd]
    rfl
  · exact hsigned (ch '+') (.inl rfl) rfl hr
  · exact hsigned (ch '-') (.inr rfl) rfl hr

end Literal

/-- A literal of any length reads as the fixnum of the integer it denotes, or is refused when
that is out of range; all its digits are read, and no operation on `int64_t` overflows
unnoticed. -/
theorem readForm_literal (c : Config) (n : Nat) (s : State) (r : Reader) (sign digits rest : Bytes) (i : Int)
    (hsign : (sign, i) ∈ signs) (hne : digits ≠ []) (hdigits : ∀ b ∈ digits, isDigit b = true)
    (hterm : isTerminator rest.head? = true) (hr : r.rest = sign ++ (digits ++ rest)) :
    (readForm c (n + 1) r s).Ends
      (if fitsFixnum (i * digitsValue digits) then .ok (mlMakeFix (i * digitsValue digits), r.eat (sign ++ digits))
        else .error .errOverflow) ∧
    (readDigits (digits ++ rest) (r.eat sign) 0 false).2.2 = r.eat (sign ++ digits) ∧
    ∀ x, .int64 x ∈ (readForm c (n + 1) r s).trace → int64Min ≤ x ∧ x ≤ int64Max := by
  have hi : i = 1 ∨ i = -1 := by
    simp only [signs, List.mem_cons, Prod.mk.injEq, List.not_mem_nil, or_false] at hsign
    rcases hsign with ⟨-, hi⟩ | ⟨-, hi⟩ | ⟨-, hi⟩
    · exact .inl hi
    · exact .inl hi
    · exact .inr hi
  have hrest : (r.eat sign).rest = digits ++ rest := rest_eat hr
  have hstop : ∀ b, rest.head? = some b → isDigit b = false := fun b => isDigit_of_terminator hterm
  have hnumber := readNumber_literal (s := s) hi hne hdigits hterm hrest
  rw [readForm_number hsign hne hdigits hr]
  obtain ⟨hgood, hk⟩ := hnumber fun _ _ => id
  refine ⟨?_, ?_, fun x hx => hgood _ hx x rfl⟩
  · unfold Run.Ends
    rw [eat_append]
    cases hres : (readNumber i (r.eat sign) s).res with
    | ok x =>
      rw [hres] at hk
      rw [if_pos hk.1, hk.2]
      rfl
    | error e =>
      rw [hres] at hk
      cases e with
      | err e =>
        rw [if_neg hk.1, hk.2]
        rfl
      | stuck => exact absurd trivial hk
      | timeout => exact absurd trivial hk
  · rw [readDigits_past hdigits hstop hrest, eat_append]

theorem readForm_literal_least :
    (readForm .created 1 (.start (ascii "-0576460752303423488)")) .created).Ends
      (.ok (mlMakeFix mFixMin, (Reader.start (ascii "-0576460752303423488)")).eat (ascii "-0576460752303423488"))) := by
  have hread := (readForm_literal .created 0 .created (.start (ascii "-0576460752303423488)")) (ascii "-")
    (ascii "0576460752303423488") (ascii ")") (-1) (by decide) (by decide) (List.all_eq_true.1 (by decide))
      (by decide) (by decide)).1
  have hvalue : -1 * digitsValue (ascii "0576460752303423488") = mFixMin := by decide +kernel
  rw [hvalue, if_pos (by decide)] at hread
  exact hread

end Microlisp
