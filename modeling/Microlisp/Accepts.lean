import Microlisp.Grammar
/-!
# The parser takes the grammar

Both ways: what it takes is a text of the grammar, and it takes every such text. In between
it only moves forward, so the count of forms inside one another never runs out.
-/
namespace Microlisp

open Reader

section Tokens
variable {l k n : Nat} {r r' : Reader} {b : UInt8} {bytes buf text rest esc : Bytes}

/-! ## Escapes -/

theorem hexDigit_lt {x : UInt8} (h : hexDigit b = some x) : x < 16 := by
  have hall : ∀ b : Fin 256, ∀ x ∈ hexDigit (UInt8.ofNat b), x < 16 := by decide +kernel
  exact hall ⟨b.toNat, b.toNat_lt⟩ x (by simpa using h)

theorem hex_value {x y : UInt8} (hx : x < 16) (hy : y < 16) : (x <<< 4) ||| y = 16 * x + y := by
  have hall : ∀ x y : Fin 16, (UInt8.ofNat x <<< 4) ||| UInt8.ofNat y = 16 * UInt8.ofNat x + UInt8.ofNat y := by
    decide +kernel
  simpa using hall ⟨x.toNat, hx⟩ ⟨y.toNat, hy⟩

theorem parseEscape_of_escape (h : Escape esc b) (hr : r.rest = esc ++ rest) :
    parseEscape l k r = .ok (b, r.eat esc) := by
  cases h with
  | @named e b h =>
    simp only [namedEscapes, List.mem_cons, Prod.mk.injEq, List.not_mem_nil, or_false] at h
    unfold parseEscape
    rw [peek_of_rest hr]
    rcases h with ⟨rfl, rfl⟩ | ⟨rfl, rfl⟩ | ⟨rfl, rfl⟩ | ⟨rfl, rfl⟩ | ⟨rfl, rfl⟩ | ⟨rfl, rfl⟩ <;> rfl
  | @hex hi lo x y hhi hlo =>
    have h1 : r.advance.rest = hi :: lo :: rest := rest_advance hr
    have h2 := rest_advance h1
    have hne : ∀ e : UInt8, e ≠ ch 'x' → (ch 'x' = e) = False := fun e he => eq_false (Ne.symm he)
    unfold parseEscape
    rw [peek_of_rest hr]
    dsimp only
    rw [if_neg (by decide), if_neg (by decide), if_neg (by decide), if_neg (by decide), if_neg (by decide),
      if_neg (by decide), if_pos rfl, peek_of_rest h1, peek_of_rest h2]
    simp only [Option.bind_some, hhi, hlo, hex_value (hexDigit_lt hhi) (hexDigit_lt hlo)]
    rfl

theorem escape_of_parseEscape (h : parseEscape l k r = .ok (b, r')) :
    ∃ esc, Escape esc b ∧ r.rest = esc ++ r'.rest ∧ r' = r.eat esc := by
  unfold parseEscape at h
  cases hpeek : r.peek with
  | none =>
    rw [hpeek] at h
    cases h
  | some e =>
    obtain ⟨bs, hr⟩ := rest_of_peek hpeek
    have hrest := rest_advance hr
    simp only [hpeek] at h
    have hnamed : ∀ {b' : UInt8}, (e, b') ∈ namedEscapes → (b', r.advance) = (b, r') →
        ∃ esc, Escape esc b ∧ r.rest = esc ++ r'.rest ∧ r' = r.eat esc := by
      rintro b' hmem ⟨⟩
      exact ⟨[e], .named hmem, by rw [hrest, hr]; rfl, rfl⟩
    iterate 6
      split at h
      · rename_i he
        subst he
        exact hnamed (by decide) (Except.ok.inj h)
    split at h
    · rename_i he
      subst he
      split at h
      · rename_i x y hx hy
        cases h
        obtain ⟨hi, hhi, hx'⟩ := Option.bind_eq_some_iff.1 hx
        obtain ⟨lo, hlo, hy'⟩ := Option.bind_eq_some_iff.1 hy
        obtain ⟨bs₁, hr₁⟩ := rest_of_peek hhi
        obtain ⟨bs₂, hr₂⟩ := rest_of_peek hlo
        have hr₃ := rest_advance hr₂
        rw [rest_advance hr₁] at hr₂
        rw [hrest] at hr₁
        rw [hex_value (hexDigit_lt hx') (hexDigit_lt hy')]
        exact ⟨[ch 'x', hi, lo], .hex hx' hy', by rw [hr₃, hr, hr₁, hr₂]; rfl, rfl⟩
      · cases h
    · cases h

/-! ## Strings -/

theorem parseStringLoop_of_text (acc : Bytes) (h : StringText bytes text rest) (hr : r.rest = text)
    (hn : text.length < n) :
    ∃ r', parseStringLoop l k n r acc = .ok (acc ++ bytes, r') ∧ r'.rest = rest := by
  induction h generalizing n r acc with
  | close =>
    obtain ⟨n, rfl⟩ : ∃ m, n = m + 1 := ⟨n - 1, by omega⟩
    refine ⟨r.advance, ?_, rest_advance hr⟩
    simp [parseStringLoop, peek_of_rest hr]
  | @plain b bytes text rest hq hb _ ih =>
    obtain ⟨n, rfl⟩ : ∃ m, n = m + 1 := ⟨n - 1, by omega⟩
    obtain ⟨r', hp, hrest⟩ := ih (acc ++ [b]) (rest_advance hr) (by simpa using hn)
    refine ⟨r', ?_, hrest⟩
    simp only [parseStringLoop, peek_of_rest hr, if_neg hq, if_neg hb, bind, Except.bind]
    simpa using hp
  | @escape b esc bytes text rest hesc _ ih =>
    obtain ⟨n, rfl⟩ : ∃ m, n = m + 1 := ⟨n - 1, by omega⟩
    have hr' : r.rest = ch '\\' :: (esc ++ text) := hr
    have hadv := rest_advance hr'
    obtain ⟨r', hp, hrest⟩ := ih (n := n) (acc ++ [b]) (rest_eat hadv) (by simp at hn; omega)
    refine ⟨r', ?_, hrest⟩
    have hq : ch '\\' ≠ ch '"' := by decide
    simp only [parseStringLoop, peek_of_rest hr', if_neg hq, if_pos, parseEscape_of_escape hesc hadv, bind, Except.bind]
    simpa using hp

theorem text_of_parseStringLoop (h : parseStringLoop l k n r buf = .ok (bytes, r')) :
    ∃ more, bytes = buf ++ more ∧ StringText more r.rest r'.rest ∧ r.Past r' := by
  induction n generalizing r buf with
  | zero => cases h
  | succ n ih =>
    simp only [parseStringLoop] at h
    cases hpeek : r.peek with
    | none =>
      rw [hpeek] at h
      cases h
    | some b =>
      obtain ⟨bs, hr⟩ := rest_of_peek hpeek
      have hrest := rest_advance hr
      simp only [hpeek] at h
      by_cases hq : b = ch '"'
      · rw [if_pos hq] at h
        cases h
        subst hq
        refine ⟨[], by simp, ?_, past_advance r⟩
        rw [hrest, hr]
        exact .close
      · rw [if_neg hq] at h
        by_cases hb : b = ch '\\'
        · rw [if_pos hb] at h
          subst hb
          cases hesc : parseEscape l k r.advance with
          | error e =>
            rw [hesc] at h
            cases h
          | ok x =>
            obtain ⟨b, r₁⟩ := x
            rw [hesc] at h
            obtain ⟨esc, hE, hr₁, heq⟩ := escape_of_parseEscape hesc
            obtain ⟨more, rfl, htext, hpast⟩ := ih h
            have hpast₁ : r.advance.Past r₁ := ⟨esc, hr₁, heq⟩
            refine ⟨b :: more, by simp, ?_, (past_advance r).trans (hpast₁.trans hpast)⟩
            rw [hr, ← hrest, hr₁]
            exact .escape hE htext
        · rw [if_neg hb] at h
          obtain ⟨more, rfl, htext, hpast⟩ := ih h
          refine ⟨b :: more, by simp, ?_, (past_advance r).trans hpast⟩
          rw [hr, ← hrest]
          exact .plain hq hb htext

/-! ## Numbers -/

theorem le_foldl_addDigit {value : Int} (h : 0 ≤ value) (digits : Bytes) : value ≤ digits.foldl addDigit value := by
  induction digits generalizing value with
  | nil => exact Int.le_refl value
  | cons b digits ih =>
    have hstep : value ≤ addDigit value b := by
      unfold addDigit
      omega
    exact Int.le_trans hstep (ih (by omega))

theorem digitsValue_nonneg (digits : Bytes) : 0 ≤ digitsValue digits := le_foldl_addDigit (Int.le_refl 0) digits

/-- The digits at the reader, and nothing that would make them more. -/
theorem readDigits_of_digits {digits : Bytes} {value : Int} (any : Bool) (hdigits : ∀ b ∈ digits, isDigit b = true)
    (hrest : ∀ b, rest.head? = some b → isDigit b = false) (hpos : 0 ≤ value)
    (hfits : digits.foldl addDigit value ≤ int64Max) :
    readDigits (digits ++ rest) r value any = (some (digits.foldl addDigit value), any || !digits.isEmpty,
      r.eat digits) := by
  induction digits generalizing r value any with
  | nil =>
    cases rest with
    | nil => simp [readDigits]
    | cons b rest => simp [readDigits, hrest b rfl]
  | cons b digits ih =>
    have hb := hdigits b (List.mem_cons_self ..)
    have hstep : 0 ≤ addDigit value b := by
      unfold addDigit
      omega
    have hle := le_foldl_addDigit hstep digits
    have hfits' : addDigit value b ≤ int64Max := Int.le_trans hle hfits
    have hmul : int64Checked (value * 10) = some (value * 10) := by
      apply if_pos
      simp only [addDigit, int64Min, int64Max] at hfits' ⊢
      omega
    have hadd : int64Checked (value * 10 + (b - ch '0').toNat) = some (addDigit value b) := by
      apply if_pos
      simp only [addDigit, int64Min, int64Max] at hfits' hstep ⊢
      omega
    have hnext := ih (r := r.advance) true (fun d hd => hdigits d (List.mem_cons_of_mem _ hd)) hstep hfits
    simp only [List.cons_append, readDigits, hb, if_true, hmul, Option.bind_some, hadd, hnext]
    simp [eat]

theorem digits_of_readDigits {bs : Bytes} {value x : Int} {any any' : Bool} (hr : r.rest = bs)
    (h : readDigits bs r value any = (some x, any', r')) :
    ∃ digits, r.rest = digits ++ r'.rest ∧ (∀ b ∈ digits, isDigit b = true) ∧ x = digits.foldl addDigit value ∧
      any' = (any || !digits.isEmpty) ∧ r' = r.eat digits := by
  induction bs generalizing r value any with
  | nil =>
    cases h
    exact ⟨[], rfl, nofun, rfl, by simp, rfl⟩
  | cons b bs ih =>
    have hrest := rest_advance hr
    simp only [readDigits] at h
    by_cases hb : isDigit b = true
    · rw [if_pos hb] at h
      split at h
      · cases h
      · rename_i added hadded
        obtain ⟨multiplied, hmul, hadd⟩ := Option.bind_eq_some_iff.1 hadded
        obtain ⟨digits, hsplit, hdigits, rfl, rfl, rfl⟩ := ih hrest h
        have hvalue : ∀ {x y : Int}, int64Checked x = some y → y = x := by
          intro x y hxy
          unfold int64Checked at hxy
          split at hxy <;> cases hxy
          rfl
        have hadded : added = addDigit value b := by
          rw [hvalue hadd, hvalue hmul]
          rfl
        refine ⟨b :: digits, ?_, ?_, by rw [hadded]; rfl, by simp, rfl⟩
        · rw [hr, ← hrest, hsplit]
          rfl
        · intro d hd
          rcases List.mem_cons.1 hd with rfl | hd
          · exact hb
          · exact hdigits d hd
    · rw [if_neg hb] at h
      cases h
      exact ⟨[], rfl, nofun, rfl, by simp, rfl⟩

theorem isDigit_of_terminator (h : isTerminator rest.head? = true) {b : UInt8} (hb : rest.head? = some b) :
    isDigit b = false := by
  have hall : ∀ i : Fin 256, isTerminator (some (UInt8.ofNat i)) = true → isDigit (UInt8.ofNat i) = false := by
    decide +kernel
  rw [hb] at h
  have := hall ⟨b.toNat, b.toNat_lt⟩
  simp only [UInt8.ofNat_toNat] at this
  exact this h

theorem signed_eq {sign v : Int} (hsign : sign = 1 ∨ sign = -1) : (if sign < 0 then -v else v) = sign * v := by
  rcases hsign with rfl | rfl <;> simp

theorem outOfRange_iff {x : Int} : (decide (x < mFixMin) || decide (x > mFixMax)) = true ↔ ¬ fitsFixnum x = true := by
  unfold fitsFixnum
  simp only [Bool.or_eq_true, Bool.and_eq_true, decide_eq_true_iff]
  omega

theorem parseNumber_of_digits {sign : Int} {digits : Bytes} (hsign : sign = 1 ∨ sign = -1)
    (hr : r.rest = digits ++ rest)
    (hne : digits ≠ []) (hdigits : ∀ b ∈ digits, isDigit b = true)
    (hfits : fitsFixnum (sign * digitsValue digits) = true)
    (hterm : isTerminator rest.head? = true) :
    parseNumber sign r = .ok (.fix (sign * digitsValue digits), r.eat digits) := by
  have hpos := digitsValue_nonneg digits
  have hmax : digitsValue digits ≤ int64Max := by
    obtain ⟨hlo, hhi⟩ := fits_iff.1 hfits
    simp only [int64Max]
    rcases hsign with rfl | rfl <;> omega
  have hread := readDigits_of_digits (r := r) false hdigits (fun b => isDigit_of_terminator hterm) (Int.le_refl 0) hmax
  have hpeek : isTerminator (r.eat digits).peek = true := by rwa [peek, rest_eat hr]
  have hempty : digits.isEmpty = false := by simpa using hne
  have hrange := not_congr (outOfRange_iff (x := sign * digitsValue digits))
  unfold parseNumber
  rw [hr, hread]
  simp only [hempty, hpeek, Bool.not_false, Bool.or_true, Bool.not_true]
  rw [if_neg (by simp), if_neg (by simp), if_neg]
  · rw [← signed_eq hsign]
    rfl
  · rw [show digits.foldl addDigit 0 = digitsValue digits from rfl, signed_eq hsign]
    simpa using hrange.2 (by simpa using hfits)

theorem digits_of_parseNumber {sign : Int} {d : Datum} (hsign : sign = 1 ∨ sign = -1)
    (h : parseNumber sign r = .ok (d, r')) :
    ∃ digits, r.rest = digits ++ r'.rest ∧ digits ≠ [] ∧ (∀ b ∈ digits, isDigit b = true) ∧
      d = .fix (sign * digitsValue digits) ∧ fitsFixnum (sign * digitsValue digits) = true ∧
      isTerminator r'.rest.head? = true ∧ r' = r.eat digits := by
  unfold parseNumber at h
  rcases hread : readDigits r.rest r 0 false with ⟨none | value, any, r₁⟩
  · rw [hread] at h
    cases h
  · obtain ⟨digits, hrest, hdigits, rfl, rfl, rfl⟩ := digits_of_readDigits rfl hread
    rw [hread] at h
    dsimp only at h
    rw [show digits.foldl addDigit 0 = digitsValue digits from rfl, signed_eq hsign] at h
    by_cases hempty : digits = []
    · rw [if_pos (by simp [hempty])] at h
      cases h
    rw [if_neg (by simpa using hempty)] at h
    by_cases hterm : isTerminator (r.eat digits).peek = true
    · rw [if_neg (by simpa using hterm)] at h
      by_cases hfits : fitsFixnum (sign * digitsValue digits) = true
      · rw [if_neg (by rw [outOfRange_iff]; simpa using hfits)] at h
        cases h
        exact ⟨digits, hrest, hempty, hdigits, rfl, hfits, hterm, rfl⟩
      · rw [if_pos (outOfRange_iff.2 hfits)] at h
        cases h
    · rw [if_pos (by simpa using hterm)] at h
      cases h

/-! ## Symbols and booleans -/

theorem parseSymbol_of_text {name : Bytes} (hr : r.rest = name ++ rest)
    (hname : ∀ b ∈ name, isTerminator (some b) = false)
    (hterm : isTerminator rest.head? = true) : parseSymbol r = .ok (.sym name, r.eat name) := by
  have hstop : ∀ b, rest.head? = some b → (!isTerminator (some b)) = false := by
    intro b hb
    rw [← hb, hterm]
    rfl
  have hall : ∀ b ∈ name, (!isTerminator (some b)) = true := fun b hb => by simp [hname b hb]
  unfold parseSymbol skipSymbol symbolBytes
  rw [advanceWhile_of_takeWhile hr hall hstop, hr, List.takeWhile_append_of_pos hall]
  cases rest with
  | nil => simp
  | cons b rest => simp [hstop b rfl]

theorem text_of_parseSymbol {d : Datum} (h : parseSymbol r = .ok (d, r')) :
    ∃ name, r.rest = name ++ r'.rest ∧ (∀ b ∈ name, isTerminator (some b) = false) ∧ d = .sym name ∧
      isTerminator r'.rest.head? = true ∧ r' = r.eat name := by
  unfold parseSymbol skipSymbol at h
  cases h
  refine ⟨symbolBytes r.rest, ?_, ?_, rfl, ?_, advanceWhile_eat⟩
  · rw [rest_advanceWhile]
    exact List.takeWhile_append_dropWhile.symm
  · intro b hb
    simpa using List.mem_takeWhile_imp hb
  · rw [rest_advanceWhile]
    cases hd : r.rest.dropWhile fun b => !isTerminator (some b) with
    | nil => rfl
    | cons b bs =>
      have := List.head?_dropWhile_not (fun b => !isTerminator (some b)) r.rest
      rw [hd] at this
      simpa using this

theorem parseHash_of_text {b : Bool} (hr : r.rest = ch '#' :: ch (if b then 't' else 'f') :: rest)
    (hterm : isTerminator rest.head? = true) : parseHash r = .ok (.bool b, r.advance.advance) := by
  have h1 := rest_advance hr
  have hpeek : isTerminator r.advance.advance.peek = true := by rwa [peek, rest_advance h1]
  unfold parseHash
  rw [peek_of_rest h1]
  cases b <;> simp [hpeek, ch]

theorem text_of_parseHash {d : Datum} {b' : UInt8} {bs : Bytes} (hr : r.rest = b' :: bs)
    (h : parseHash r = .ok (d, r')) :
    ∃ b : Bool, bs = ch (if b then 't' else 'f') :: r'.rest ∧ d = .bool b ∧ isTerminator r'.rest.head? = true ∧
      r.Past r' := by
  have h1 := rest_advance hr
  have hbool : ∀ b : Bool, r.advance.peek = some (ch (if b then 't' else 'f')) →
      isTerminator r.advance.advance.peek = true →
      (Datum.bool b, r.advance.advance) = (d, r') → ∃ b : Bool, bs = ch (if b then 't' else 'f') :: r'.rest ∧
        d = .bool b ∧
        isTerminator r'.rest.head? = true ∧ r.Past r' := by
    rintro b hpeek hterm ⟨⟩
    obtain ⟨cs, hcs⟩ := rest_of_peek hpeek
    refine ⟨b, ?_, rfl, hterm, (past_advance r).trans (past_advance _)⟩
    rw [rest_advance hcs, ← h1, hcs]
  unfold parseHash at h
  dsimp only at h
  split at h
  · rename_i hb
    rw [Bool.and_eq_true, decide_eq_true_iff] at hb
    exact hbool true hb.1 hb.2 (Except.ok.inj h)
  · split at h
    · rename_i hb
      rw [Bool.and_eq_true, decide_eq_true_iff] at hb
      exact hbool false hb.1 hb.2 (Except.ok.inj h)
    · cases h

end Tokens

/-! ## Texts -/

section Texts
variable {part : Part} {k k' : Nat} {d : Datum} {text rest : Bytes} {r : Reader} {b : UInt8}

theorem StringText.length_lt {bytes : Bytes} (h : StringText bytes text rest) : rest.length < text.length := by
  induction h with
  | close => simp
  | plain _ _ _ ih => simp; omega
  | escape _ _ ih => simp; omega

/-- Every part of a text has a byte. -/
theorem Text.length_lt (h : Text part k d text rest) : rest.length < text.length := by
  induction h with
  | bool _ =>
    simp only [List.length_cons]
    omega
  | number hx _ _ =>
    obtain ⟨sign, n, digits, -, hne, -, rfl, -⟩ := hx
    have := List.length_pos_iff.2 hne
    simp
    omega
  | symbol hn _ =>
    have := List.length_pos_iff.2 hn.1
    simp
    omega
  | string hs =>
    have := hs.length_lt
    simp
    omega
  | quote _ _ ih => simp; omega
  | list _ ih => simp; omega
  | close _ => simp; omega
  | elem _ _ _ _ ih ih' => simp; omega
  | dotted _ _ _ _ _ ih =>
    simp at ih ⊢
    omega

/-- The bytes that are no layout and end no list. -/
def opens (b : UInt8) : Bool := !isWhitespace b && b != ch ';' && b != ch ')'

theorem opens_of_not_terminator (h : isTerminator (some b) = false) : opens b = true := by
  simp only [isTerminator, Bool.or_eq_false_iff, decide_eq_false_iff_not] at h
  simp [opens, h.1.1.1.1.1, h.1.1.2, h.1.1.1.2]

theorem not_terminator_of_isDigit (h : isDigit b = true) : isTerminator (some b) = false := by
  by_contra ht
  have hterm : isTerminator [b].head? = true := by simpa using ht
  have := isDigit_of_terminator hterm rfl
  rw [h] at this
  cases this

/-- The first byte of a datum. -/
theorem Text.opens (h : Text .datum k d text rest) : ∃ b bs, text = b :: bs ∧ Microlisp.opens b = true := by
  cases h with
  | bool _ => exact ⟨_, _, rfl, by decide⟩
  | number hx _ _ =>
    obtain ⟨sign, n, digits, hsign, hne, hdigits, rfl, -⟩ := hx
    cases digits with
    | nil => cases hne rfl
    | cons b bs =>
      have hb := opens_of_not_terminator (not_terminator_of_isDigit (hdigits b (List.mem_cons_self ..)))
      simp only [signs, List.mem_cons, Prod.mk.injEq, List.not_mem_nil, or_false] at hsign
      rcases hsign with ⟨rfl, -⟩ | ⟨rfl, -⟩ | ⟨rfl, -⟩
      · exact ⟨_, _, rfl, hb⟩
      · exact ⟨_, _, rfl, by decide⟩
      · exact ⟨_, _, rfl, by decide⟩
  | @symbol _ name _ hn _ =>
    cases name with
    | nil => cases hn.1 rfl
    | cons b bs => exact ⟨b, _, rfl, opens_of_not_terminator (hn.2.1 b (List.mem_cons_self ..))⟩
  | string _ => exact ⟨_, _, rfl, by decide⟩
  | quote _ _ => exact ⟨_, _, rfl, by decide⟩
  | list _ => exact ⟨_, _, rfl, by decide⟩

theorem Text.starts (h : Text .datum k d text rest) : Starts text := by
  obtain ⟨b, bs, rfl, hb⟩ := h.opens
  rintro _ ⟨⟩
  simp only [Microlisp.opens, Bool.and_eq_true, Bool.not_eq_true', bne_iff_ne] at hb
  exact hb.1

theorem skip_some (h : (skipWsAndComments r).peek = some b) :
    ∃ lay, Layout lay ∧ r.rest = lay ++ (skipWsAndComments r).rest := by
  rcases skip_cases r with ⟨lay, b, bs, heq, hlay, -, hskip⟩ | ⟨-, hskip⟩
  · exact ⟨lay, hlay, by rw [hskip, rest_eat heq, heq]⟩
  · rw [hskip, peek, rest_eat (List.append_nil _).symm] at h
    cases h

theorem dot_iff {bs : Bytes} (hr : r.rest = b :: bs) :
    (decide (b = ch '.') && r.peek2.isSome && isTerminator r.peek2) = true ↔ Dot r.rest := by
  have hpeek : r.peek2 = bs.head? := by
    unfold peek2
    rw [hr]
    cases bs <;> rfl
  rw [hpeek, hr]
  constructor
  · intro h
    simp only [Bool.and_eq_true, decide_eq_true_iff] at h
    obtain ⟨⟨rfl, hsome⟩, hterm⟩ := h
    cases bs with
    | nil => cases hsome
    | cons b' bs => exact ⟨b', bs, rfl, hterm⟩
  · rintro ⟨b', bs', ⟨⟩, hterm⟩
    simpa using hterm

end Texts

/-! ## What is taken is a text -/

/-- A list is read one deeper, and left again. -/
theorem Reader.Past.nested {r r' : Reader} (h : ({ r with depth := r.depth + 1 } : Reader).Past r') :
    r.Past { r' with depth := r'.depth - 1 } := by
  obtain ⟨bs, hrest, heq⟩ := h
  refine ⟨bs, hrest, ?_⟩
  rw [heq, eat_setDepth]
  simp only [Nat.add_sub_cancel]
  rw [show r.depth = (r.eat bs).depth from depth_eat.symm]

section Sound
variable {limit n : Nat} {r r' : Reader} {d : Datum} {pf : Reader → Parse (Option Datum × Reader)}

/-- The reader moves past a text of the datum, after layout. -/
def Took (limit : Nat) (r : Reader) (d : Datum) (r' : Reader) : Prop :=
  r.Past r' ∧ Text .datum (limit - r.depth) d (skipWsAndComments r).rest r'.rest

theorem parseList_eq (r : Reader) (hdepth : r.depth < limit) :
    parseList limit pf r = (parseListLoop pf ((skipWsAndComments { r with depth := r.depth + 1 }).rest.length + 1) []
      { r with depth := r.depth + 1 } >>= fun x => .ok (x.1, { x.2 with depth := x.2.depth - 1 })) := by
  have hloop : ∀ m r, parseListLoop pf (m + 1) [] (skipWsAndComments r) = parseListLoop pf (m + 1) [] r := by
    intro m r
    simp only [parseListLoop, skip_skip]
  unfold parseList
  rw [if_neg (Nat.not_le.2 hdepth)]
  dsimp only
  split
  · rename_i hpeek
    simp only [parseListLoop, hpeek, if_true]
    rfl
  · rw [hloop]

theorem parseListLoop_took (hpf : ∀ r d r', pf r = .ok (some d, r') → Took limit r d r')
    (hend : ∀ r r', pf r = .ok (none, r') → r' = skipWsAndComments r ∧ r'.peek = none) {elems : List Datum}
    (h : parseListLoop pf n elems r = .ok (d, r')) :
    r.Past r' ∧ ∃ d', d = .list elems d' ∧ Text (.list !elems.isEmpty) (limit - r.depth) d' r.rest r'.rest := by
  induction n generalizing elems r with
  | zero => cases h
  | succ n ih =>
    simp only [parseListLoop] at h
    have hskip := past_skip r
    cases hpeek : (skipWsAndComments r).peek with
    | none =>
      rw [hpeek] at h
      cases h
    | some b =>
      obtain ⟨bs, hr⟩ := rest_of_peek hpeek
      obtain ⟨lay, hlay, hrest⟩ := skip_some hpeek
      simp only [hpeek] at h
      -- the list ends here, or a dot comes, or an element
      by_cases hclose : b = ch ')'
      · rw [if_pos hclose] at h
        cases h
        subst hclose
        refine ⟨hskip.trans (past_advance _), .nil, rfl, ?_⟩
        rw [hrest, rest_advance hr, hr]
        exact .close hlay
      rw [if_neg hclose] at h
      by_cases hdot : (decide (b = ch '.') && (skipWsAndComments r).peek2.isSome
          && isTerminator (skipWsAndComments r).peek2) = true
      · rw [if_pos hdot] at h
        rw [dot_iff hr] at hdot
        by_cases helems : elems = []
        · rw [if_pos helems] at h
          cases h
        rw [if_neg helems] at h
        cases hp : pf (skipWsAndComments r).advance with
        | error e =>
          rw [hp] at h
          cases h
        | ok x =>
          obtain ⟨y, r₁⟩ := x
          rw [hp] at h
          simp only [bind, Except.bind] at h
          by_cases hclose' : (skipWsAndComments r₁).peek = some (ch ')')
          · rw [if_neg (not_not.2 hclose')] at h
            cases h
            cases y with
            | none =>
              -- at the end of the text there is no closing parenthesis
              obtain ⟨heq, hpeek₁⟩ := hend _ _ hp
              rw [heq, skip_skip, ← heq, hpeek₁] at hclose'
              cases hclose'
            | some a =>
              obtain ⟨hpast₁, htext⟩ := hpf _ _ _ hp
              have hadv := past_advance (skipWsAndComments r)
              refine ⟨hskip.trans (hadv.trans (hpast₁.trans ((past_skip r₁).trans (past_advance _)))), a, rfl, ?_⟩
              obtain ⟨b', bs', htext', -⟩ := htext.opens
              obtain ⟨lay', hlay', hrest'⟩ := skip_some (peek_of_rest htext')
              obtain ⟨lay'', hlay'', hrest''⟩ := skip_some hclose'
              obtain ⟨more, hmore⟩ := rest_of_peek hclose'
              have hbs : bs = lay' ++ (skipWsAndComments (skipWsAndComments r).advance).rest := by
                rw [← hrest', rest_advance hr]
              obtain ⟨_, _, hdots, hterm⟩ := hdot
              rw [hr] at hdots
              cases hdots
              have hstarted : (!elems.isEmpty) = true := by simpa using helems
              rw [hadv.depth, hskip.depth, hrest'', hmore, ← rest_advance hmore] at htext
              rw [hrest, hr, hbs, hstarted]
              have hdot' : Dot (ch '.' :: lay' ++ (skipWsAndComments (skipWsAndComments r).advance).rest) :=
                ⟨_, _, congrArg _ hbs.symm, hterm⟩
              simpa using Text.dotted hlay hlay' hlay'' hdot' htext
          · rw [if_pos hclose'] at h
            cases h
      · rw [if_neg hdot] at h
        rw [dot_iff hr] at hdot
        cases hp : pf (skipWsAndComments r) with
        | error e =>
          rw [hp] at h
          cases h
        | ok x =>
          obtain ⟨y, r₁⟩ := x
          rw [hp] at h
          cases y with
          | none =>
            -- a byte was seen, so a datum is read
            obtain ⟨heq, hpeek₁⟩ := hend _ _ hp
            rw [heq, skip_skip, hpeek] at hpeek₁
            cases hpeek₁
          | some a =>
            obtain ⟨hpast₁, htext⟩ := hpf _ _ _ hp
            simp only [bind, Except.bind, Option.getD_some] at h
            obtain ⟨hpast, d', rfl, hlist⟩ := ih h
            refine ⟨hskip.trans (hpast₁.trans hpast), .pair a d', by simp [Datum.list], ?_⟩
            rw [skip_skip, hskip.depth] at htext
            rw [hpast₁.depth, hskip.depth] at hlist
            have hstarted : (!(elems ++ [a]).isEmpty) = true := by simp
            rw [hstarted] at hlist
            rw [hrest]
            exact .elem hlay hdot htext hlist

theorem parseDatum_took {b : UInt8} (hpf : ∀ r d r', pf r = .ok (some d, r') → Took limit r d r')
    (hend : ∀ r r', pf r = .ok (none, r') → r' = skipWsAndComments r ∧ r'.peek = none) (hstart : Starts r.rest)
    (hb : r.peek = some b)
    (h : parseDatum limit pf b r = .ok (d, r')) : r.Past r' ∧ Text .datum (limit - r.depth) d r.rest r'.rest := by
  obtain ⟨bs, hr⟩ := rest_of_peek hb
  have hrest := rest_advance hr
  have hadv := past_advance r
  unfold parseDatum at h
  -- by the first byte, in the order in which the parser looks at it
  by_cases hopen : b = ch '('
  · rw [if_pos hopen] at h
    subst hopen
    by_cases hdepth : r.advance.depth < limit
    · rw [parseList_eq _ hdepth] at h
      cases hp : parseListLoop pf
        ((skipWsAndComments { r.advance with depth := r.advance.depth + 1 }).rest.length + 1) []
          { r.advance with depth := r.advance.depth + 1 } with
      | error e =>
        rw [hp] at h
        cases h
      | ok x =>
        obtain ⟨d₁, r₁⟩ := x
        rw [hp] at h
        cases h
        obtain ⟨hnested, d', rfl, htext⟩ := parseListLoop_took hpf hend hp
        have hpast := hnested.nested
        dsimp only at htext
        refine ⟨hadv.trans hpast, ?_⟩
        rw [depth_advance] at hdepth htext
        obtain ⟨k, hk⟩ : ∃ k, limit - r.depth = k + 1 := ⟨limit - r.depth - 1, by omega⟩
        rw [show limit - (r.depth + 1) = k by omega, hrest] at htext
        rw [hk, hr]
        exact .list htext
    · unfold parseList at h
      rw [if_pos (by omega)] at h
      cases h
  rw [if_neg hopen] at h
  by_cases hclose : b = ch ')'
  · rw [if_pos hclose] at h
    cases h
  rw [if_neg hclose] at h
  by_cases hquote : b = ch '\''
  · rw [if_pos hquote] at h
    subst hquote
    unfold parseQuote at h
    cases hp : pf r.advance with
    | error e =>
      rw [hp] at h
      cases h
    | ok x =>
      obtain ⟨y, r₁⟩ := x
      rw [hp] at h
      cases y with
      | none => cases h
      | some a =>
        cases h
        obtain ⟨hpast₁, htext⟩ := hpf _ _ _ hp
        refine ⟨hadv.trans hpast₁, ?_⟩
        obtain ⟨b', bs', htext', -⟩ := htext.opens
        obtain ⟨lay, hlay, hlayrest⟩ := skip_some (peek_of_rest htext')
        rw [depth_advance] at htext
        rw [hr, ← hrest, hlayrest]
        exact .quote hlay htext
  rw [if_neg hquote] at h
  by_cases hstring : b = ch '"'
  · rw [if_pos hstring] at h
    subst hstring
    unfold parseString at h
    cases hp : parseStringLoop r.line r.column (r.advance.rest.length + 1) r.advance [] with
    | error e =>
      rw [hp] at h
      cases h
    | ok x =>
      rw [hp] at h
      cases h
      obtain ⟨more, hmore, htext, hpast⟩ := text_of_parseStringLoop hp
      refine ⟨hadv.trans hpast, ?_⟩
      rw [hmore, hr, ← hrest]
      exact .string htext
  rw [if_neg hstring] at h
  by_cases hhash : b = ch '#'
  · rw [if_pos hhash] at h
    subst hhash
    obtain ⟨b, hbs, rfl, hterm, hpast⟩ := text_of_parseHash hr h
    refine ⟨hpast, ?_⟩
    rw [hr, hbs]
    exact .bool hterm
  rw [if_neg hhash] at h
  by_cases hdigit : isDigit b = true
  · rw [if_pos hdigit] at h
    obtain ⟨digits, hsplit, hne, hdigits, rfl, hfits, hterm, heq⟩ := digits_of_parseNumber (.inl rfl) h
    refine ⟨⟨digits, hsplit, heq⟩, ?_⟩
    rw [hsplit]
    exact .number ⟨[], 1, digits, by decide, hne, hdigits, rfl, rfl⟩ hfits hterm
  rw [if_neg hdigit] at h
  by_cases hsign : ((decide (b = ch '+') || decide (b = ch '-')) && r.peek2.any isDigit) = true
  · rw [if_pos hsign] at h
    simp only [Bool.and_eq_true, Bool.or_eq_true, decide_eq_true_iff] at hsign
    -- either sign, with its own number
    have hnumber : ∀ n : Int, ([b], n) ∈ signs → n = 1 ∨ n = -1 → parseNumber n r.advance = .ok (d, r') →
        r.Past r' ∧ Text .datum (limit - r.depth) d r.rest r'.rest := by
      intro n hmem hn hp
      obtain ⟨digits, hsplit, hne, hdigits, rfl, hfits, hterm, heq⟩ := digits_of_parseNumber hn hp
      refine ⟨hadv.trans ⟨digits, hsplit, heq⟩, ?_⟩
      rw [hr, ← hrest, hsplit]
      have htext : numberText (b :: digits) (n * digitsValue digits) := ⟨[b], n, digits, hmem, hne, hdigits, rfl, rfl⟩
      exact .number htext hfits hterm
    rcases hsign.1 with rfl | rfl
    · exact hnumber 1 (by decide) (.inl rfl) h
    · exact hnumber (-1) (by decide) (.inr rfl) h
  · rw [if_neg hsign] at h
    obtain ⟨name, hsplit, hname, rfl, hterm, heq⟩ := text_of_parseSymbol h
    refine ⟨⟨name, hsplit, heq⟩, ?_⟩
    obtain ⟨hws, hcomment⟩ := hstart b hb
    have hplain : isTerminator (some b) = false := by
      simp [isTerminator, hws, hopen, hclose, hcomment, hstring, hquote]
    rw [hsplit]
    apply Text.symbol _ hterm
    rw [hr] at hsplit
    cases name with
    | nil =>
      rw [← show b :: bs = r'.rest from hsplit] at hterm
      rw [show isTerminator (some b) = true from hterm] at hplain
      cases hplain
    | cons b' name =>
      obtain ⟨rfl, hbs⟩ := List.cons.inj hsplit
      refine ⟨nofun, hname, ?_⟩
      -- a name that starts like a boolean or a number would have been read as one
      rintro (h' | h' | ⟨h', hnext⟩)
      · exact hhash (Option.some.inj h')
      · exact hdigit h'
      · apply hsign
        have hpeek : r.peek2.any isDigit = true := by
          unfold peek2
          rw [hr, hbs]
          cases name with
          | nil => cases hnext
          | cons d name => exact hnext
        simpa [hpeek] using h'

theorem parseForm_none (h : parseForm limit n r = .ok (none, r')) : r' = skipWsAndComments r ∧ r'.peek = none := by
  cases n with
  | zero => cases h
  | succ n =>
    simp only [parseForm] at h
    cases hpeek : (skipWsAndComments r).peek with
    | none =>
      simp only [hpeek] at h
      cases h
      exact ⟨rfl, hpeek⟩
    | some b =>
      simp only [hpeek] at h
      cases hp : parseDatum limit (parseForm limit n) b (skipWsAndComments r) with
      | error e =>
        rw [hp] at h
        cases h
      | ok x =>
        rw [hp] at h
        cases h

theorem parseForm_took (n : Nat) (r : Reader) (d : Datum) (r' : Reader) (h : parseForm limit n r = .ok (some d, r')) :
    Took limit r d r' := by
  induction n generalizing r d r' with
  | zero => cases h
  | succ n ih =>
    simp only [parseForm] at h
    cases hpeek : (skipWsAndComments r).peek with
    | none =>
      rw [hpeek] at h
      cases h
    | some b =>
      simp only [hpeek] at h
      cases hp : parseDatum limit (parseForm limit n) b (skipWsAndComments r) with
      | error e =>
        rw [hp] at h
        cases h
      | ok x =>
        rw [hp] at h
        cases h
        obtain ⟨hpast, htext⟩ := parseDatum_took ih (fun _ _ => parseForm_none) (starts_skip r) hpeek hp
        rw [(past_skip r).depth] at htext
        exact ⟨(past_skip r).trans hpast, htext⟩

end Sound
/-! ## Every text is taken -/

section Complete
variable {limit k n : Nat} {r : Reader} {d : Datum} {text rest : Bytes}

/-- What the parser makes of a part. In a list it has the elements so far. -/
def Part.Taken (limit k : Nat) (d : Datum) (text rest : Bytes) : Part → Prop
  | .datum => ∀ n r b, r.rest = text → k ≤ limit - r.depth → text.length ≤ n → r.peek = some b →
      ∃ r', parseDatum limit (parseForm limit n) b r = .ok (d, r') ∧ r.Past r' ∧ r'.rest = rest
  | .list started => ∀ n m elems r, r.rest = text → k ≤ limit - r.depth → text.length < n →
      (skipWsAndComments r).rest.length < m → started = !elems.isEmpty →
      ∃ r', parseListLoop (parseForm limit n) m elems r = .ok (.list elems d, r') ∧ r.Past r' ∧ r'.rest = rest

theorem parseForm_of_taken {lay : Bytes} (h : Part.Taken limit k d text rest .datum) (htext : Text .datum k d text rest)
    (hlay : Layout lay) (hr : r.rest = lay ++ text) (hk : k ≤ limit - r.depth) (hn : text.length < n) :
    ∃ r', parseForm limit n r = .ok (some d, r') ∧ r.Past r' ∧ r'.rest = rest := by
  obtain ⟨n, rfl⟩ : ∃ m, n = m + 1 := ⟨n - 1, by omega⟩
  obtain ⟨b, bs, htext', -⟩ := htext.opens
  have hskip := skip_layout hr hlay htext.starts
  have hrest : (skipWsAndComments r).rest = text := by rw [hskip, rest_eat hr]
  have hpeek : (skipWsAndComments r).peek = some b := peek_of_rest (by rw [hrest, htext'])
  obtain ⟨r', hp, hpast, hrest'⟩ := h n _ b hrest (by rwa [(past_skip r).depth]) (by omega) hpeek
  refine ⟨r', ?_, (past_skip r).trans hpast, hrest'⟩
  simp only [parseForm, hpeek, hp, bind, Except.bind]

theorem parseDatum_of_symbol {pf : Reader → Parse (Option Datum × Reader)} {b : UInt8} {bs : Bytes}
    (hr : r.rest = b :: bs)
    (hb : isTerminator (some b) = false) (hother : ¬ startsOther r.rest) : parseDatum limit pf b r = parseSymbol r := by
  simp only [isTerminator, Bool.or_eq_false_iff, decide_eq_false_iff_not] at hb
  simp only [startsOther, hr, List.head?_cons, Option.some.injEq, Option.any_some, not_or] at hother
  unfold parseDatum
  rw [if_neg hb.1.1.1.1.2, if_neg hb.1.1.1.2, if_neg hb.2, if_neg hb.1.2, if_neg hother.1, if_neg hother.2.1, if_neg]
  have hpeek : r.peek2 = (b :: bs)[1]? := by rw [peek2, hr]
  rw [hpeek]
  simpa using hother.2.2

theorem parseDatum_of_digit {pf : Reader → Parse (Option Datum × Reader)} {b : UInt8} (hb : isDigit b = true) :
    parseDatum limit pf b r = parseNumber 1 r := by
  have hplain := not_terminator_of_isDigit hb
  simp only [isTerminator, Bool.or_eq_false_iff, decide_eq_false_iff_not] at hplain
  have hhash : b ≠ ch '#' := by
    rintro rfl
    cases hb
  unfold parseDatum
  rw [if_neg hplain.1.1.1.1.2, if_neg hplain.1.1.1.2, if_neg hplain.2, if_neg hplain.1.2, if_neg hhash, if_pos hb]

theorem parseDatum_of_signed {pf : Reader → Parse (Option Datum × Reader)} {b : UInt8} (hb : b = ch '+' ∨ b = ch '-')
    (hdigit : r.peek2.any isDigit = true) :
    parseDatum limit pf b r = parseNumber (if b = ch '-' then -1 else 1) r.advance := by
  unfold parseDatum
  rw [hdigit]
  rcases hb with rfl | rfl <;> rfl

theorem not_startsOther_append {name : Bytes} (hne : name ≠ []) (hterm : isTerminator rest.head? = true)
    (h : ¬ startsOther name) :
    ¬ startsOther (name ++ rest) := by
  match name, hne with
  | [b], _ =>
    have hnext : rest.head?.any isDigit = false := by
      cases rest with
      | nil => rfl
      | cons b' rest => simpa using isDigit_of_terminator hterm rfl
    simp only [startsOther, List.head?_cons, List.singleton_append, List.getElem?_cons_succ, List.getElem?_nil] at h ⊢
    rw [← List.head?_eq_getElem?, hnext]
    simpa using h
  | b :: b' :: name, _ => exact h

theorem Text.taken {part : Part} (h : Text part k d text rest) : part.Taken limit k d text rest := by
  -- on the derivation: each rule takes the parser down the branch that reads it
  induction h with
  | @bool k b rest ht =>
    intro n r b' hr _ _ hpeek
    rw [peek_of_rest hr] at hpeek
    cases hpeek
    refine ⟨r.advance.advance, parseHash_of_text hr ht, (past_advance r).trans (past_advance _),
      rest_advance (rest_advance hr)⟩
  | @number k text rest x hx hf ht =>
    intro n r b hr _ _ hpeek
    obtain ⟨sign, i, digits, hsign, hne, hdigits, rfl, rfl⟩ := hx
    rw [List.append_assoc] at hr
    obtain ⟨d, ds, rfl⟩ := List.exists_cons_of_ne_nil hne
    have hd := hdigits d (List.mem_cons_self ..)
    -- a sign is followed by a digit
    have hsigned : ∀ b', r.rest = b' :: (d :: ds ++ rest) → b' = ch '+' ∨ b' = ch '-' →
        i = (if b' = ch '-' then -1 else 1) → ∃ r', parseDatum limit (parseForm limit n) b r
          = .ok (.fix (i * digitsValue (d :: ds)), r') ∧ r.Past r' ∧ r'.rest = rest := by
      intro b' hr' hb' hi
      rw [peek_of_rest hr'] at hpeek
      cases hpeek
      have hadv := rest_advance hr'
      have hpeek2 : r.peek2.any isDigit = true := by
        rw [peek2, hr']
        exact hd
      have hone : i = 1 ∨ i = -1 := by
        rw [hi]
        split
        · exact .inr rfl
        · exact .inl rfl
      refine ⟨_, ?_, (past_advance r).trans (past_eat hadv), rest_eat hadv⟩
      rw [← parseNumber_of_digits hone hadv hne hdigits hf ht, hi, parseDatum_of_signed hb' hpeek2]
    simp only [signs, List.mem_cons, Prod.mk.injEq, List.not_mem_nil, or_false] at hsign
    rcases hsign with ⟨rfl, rfl⟩ | ⟨rfl, rfl⟩ | ⟨rfl, rfl⟩
    · have hr' : r.rest = d :: ds ++ rest := hr
      rw [peek_of_rest hr'] at hpeek
      cases hpeek
      refine ⟨_, ?_, past_eat hr', rest_eat hr'⟩
      rw [parseDatum_of_digit hd, parseNumber_of_digits (.inl rfl) hr' hne hdigits hf ht]
    · exact hsigned (ch '+') hr (.inl rfl) rfl
    · exact hsigned (ch '-') hr (.inr rfl) rfl
  | @symbol k name rest hn ht =>
    intro n r b hr _ _ hpeek
    obtain ⟨hne, hname, hother⟩ := hn
    obtain ⟨b', bs, rfl⟩ := List.exists_cons_of_ne_nil hne
    rw [peek_of_rest (show r.rest = b' :: (bs ++ rest) from hr)] at hpeek
    cases hpeek
    have hother' := not_startsOther_append hne ht hother
    rw [← hr] at hother'
    refine ⟨_, ?_, past_eat hr, rest_eat hr⟩
    rw [parseDatum_of_symbol hr (hname b (List.mem_cons_self ..)) hother', parseSymbol_of_text hr hname ht]
  | @string k bytes text rest hs =>
    intro n r b hr _ _ hpeek
    rw [peek_of_rest hr] at hpeek
    cases hpeek
    have hrest := rest_advance hr
    obtain ⟨r', hp, hrest'⟩ := parseStringLoop_of_text (l := r.line) (k := r.column) [] hs hrest (Nat.lt_succ_self _)
    obtain ⟨_, _, _, hpast⟩ := text_of_parseStringLoop hp
    refine ⟨r', ?_, (past_advance r).trans hpast, hrest'⟩
    show parseString r = _
    rw [parseString, hrest, hp]
    rfl
  | @quote k d lay text rest hl htext ih =>
    intro n r b hr hk hn hpeek
    rw [peek_of_rest hr] at hpeek
    cases hpeek
    obtain ⟨r', hp, hpast, hrest'⟩ := parseForm_of_taken (n := n) ih htext hl (rest_advance hr) (by rwa [depth_advance])
      (by simp at hn; omega)
    refine ⟨r', ?_, (past_advance r).trans hpast, hrest'⟩
    show parseQuote (parseForm limit n) r = _
    rw [parseQuote, hp]
    rfl
  | @list k d text rest _ ih =>
    intro n r b hr hk hn hpeek
    rw [peek_of_rest hr] at hpeek
    cases hpeek
    have hdepth := depth_advance (r := r)
    have hadv := rest_advance hr
    obtain ⟨r', hp, hpast, hrest'⟩ := ih n _ [] { r.advance with depth := r.advance.depth + 1 } hadv
      (by show k ≤ limit - (r.advance.depth + 1); omega) (by simp at hn; omega) (Nat.lt_succ_self _) rfl
    refine ⟨{ r' with depth := r'.depth - 1 }, ?_, (past_advance r).trans hpast.nested, hrest'⟩
    show parseList limit (parseForm limit n) r.advance = _
    rw [parseList_eq _ (by omega), hp]
    rfl
  | @close started k lay rest hl =>
    intro n m elems r hr _ _ hm _
    obtain ⟨m, rfl⟩ : ∃ i, m = i + 1 := ⟨m - 1, by omega⟩
    have hskip := skip_layout hr hl (by rintro _ ⟨⟩; decide)
    have hrest : (skipWsAndComments r).rest = ch ')' :: rest := by rw [hskip, rest_eat hr]
    refine ⟨(skipWsAndComments r).advance, ?_, (past_skip r).trans (past_advance _), rest_advance hrest⟩
    simp only [parseListLoop, peek_of_rest hrest, if_true]
  | @elem started k a d lay text mid rest hl hdot htext _ ih ih' =>
    intro n m elems r hr hk hn hm hs
    obtain ⟨m, rfl⟩ : ∃ i, m = i + 1 := ⟨m - 1, by omega⟩
    have hpast := past_skip r
    have hskip := skip_layout hr hl htext.starts
    have hrest : (skipWsAndComments r).rest = text := by rw [hskip, rest_eat hr]
    obtain ⟨b, bs, htext', hb⟩ := htext.opens
    have hcons : (skipWsAndComments r).rest = b :: bs := by rw [hrest, htext']
    have hclose : b ≠ ch ')' := by
      rintro rfl
      cases hb
    rw [← hrest, ← dot_iff hcons] at hdot
    have hlt := htext.length_lt
    have hlen : text.length < n := by
      simp only [List.length_append] at hn
      omega
    -- the element, then the rest of the list
    obtain ⟨r₁, hp, hpast₁, hrest₁⟩ := parseForm_of_taken ih htext .nil (show _ = [] ++ text from hrest)
      (by rwa [hpast.depth]) hlen
    have hle := (past_skip r₁).length_le
    have hdepth : r₁.depth = r.depth := hpast₁.depth.trans hpast.depth
    obtain ⟨r', hp', hpast', hrest'⟩ := ih' n m (elems ++ [a]) r₁ hrest₁ (by rwa [hdepth]) (by omega)
      (by rw [hrest₁] at hle; rw [hrest] at hm; omega) (by simp)
    refine ⟨r', ?_, hpast.trans (hpast₁.trans hpast'), hrest'⟩
    simp only [parseListLoop, peek_of_rest hcons, if_neg hclose, if_neg hdot, hp, bind, Except.bind,
      Option.getD_some, hp']
    simp [Datum.list]
  | @dotted k d lay lay' lay'' text rest hl hl' hl'' hdot htext ih =>
    intro n m elems r hr hk hn hm hs
    obtain ⟨m, rfl⟩ : ∃ i, m = i + 1 := ⟨m - 1, by omega⟩
    have hpast := past_skip r
    rw [List.append_assoc] at hr
    have hskip := skip_layout hr hl (by rintro _ ⟨⟩; decide)
    have hcons : (skipWsAndComments r).rest = ch '.' :: (lay' ++ text) := by rw [hskip, rest_eat hr]; rfl
    have hdot' : Dot (skipWsAndComments r).rest := by rwa [hcons]
    have hnext : ((skipWsAndComments r).peek2.isSome && isTerminator (skipWsAndComments r).peek2) = true := by
      simpa using (dot_iff hcons).2 hdot'
    have helems : elems ≠ [] := by simpa using hs
    have hadv := past_advance (skipWsAndComments r)
    have hdepth : (skipWsAndComments r).advance.depth = r.depth := hadv.depth.trans hpast.depth
    obtain ⟨r₁, hp, hpast₁, hrest₁⟩ := parseForm_of_taken (n := n) ih htext hl' (rest_advance hcons) (by rwa [hdepth])
      (by simp at hn; omega)
    have hskip₁ := skip_layout hrest₁ hl'' (by rintro _ ⟨⟩; decide)
    have hcons₁ : (skipWsAndComments r₁).rest = ch ')' :: rest := by rw [hskip₁, rest_eat hrest₁]
    refine ⟨(skipWsAndComments r₁).advance, ?_,
      hpast.trans (hadv.trans (hpast₁.trans ((past_skip r₁).trans (past_advance _)))),
      rest_advance hcons₁⟩
    have hclose : ch '.' ≠ ch ')' := by decide
    simp only [parseListLoop, peek_of_rest hcons, if_neg hclose, decide_true, Bool.true_and, hnext,
      if_true, if_neg helems, hp,
      bind, Except.bind, peek_of_rest hcons₁, ne_eq, not_true_eq_false, if_false, Option.getD_some]

theorem parse_of_text (htext : Text .datum k d (skipWsAndComments r).rest rest) (hk : k ≤ limit - r.depth) :
    ∃ r', parse limit r = .ok (some d, r') ∧ r.Past r' ∧ r'.rest = rest := by
  obtain ⟨b, bs, hrest, -⟩ := htext.opens
  obtain ⟨lay, hlay, hr⟩ := skip_some (peek_of_rest hrest)
  exact parseForm_of_taken htext.taken htext hlay hr hk (Nat.lt_succ_of_le (past_skip r).length_le)

/-- The parser takes the texts of the grammar, and only these. -/
theorem parse_eq_some {r' : Reader} : parse limit r = .ok (some d, r') ↔ Took limit r d r' := by
  constructor
  · exact parseForm_took _ r d r'
  · rintro ⟨hpast, htext⟩
    obtain ⟨r₁, hp, hpast₁, hrest₁⟩ := parse_of_text htext (Nat.le_refl _)
    rw [hp, hpast₁.unique hpast hrest₁]

theorem parse_eq_none {r' : Reader} : parse limit r = .ok (none, r') ↔ r' = skipWsAndComments r ∧ r'.peek = none := by
  constructor
  · exact parseForm_none
  · rintro ⟨rfl, hpeek⟩
    simp only [parse, parseForm, hpeek]

end Complete
/-! ## The count is enough -/

/-- The parser has an answer. -/
def Decided {α : Type} (p : Parse α) : Prop := p ≠ .error .fuel

section Decided
variable {α β : Type} {p : Parse α} {limit : Nat} {pf : Reader → Parse (Option Datum × Reader)}

theorem decided_ok {a : α} : Decided (.ok a : Parse α) := nofun

theorem decided_refuse {line column : Nat} {message : Bytes} {e : Status} :
    Decided (refuse line column message e : Parse α) :=
  nofun

theorem Decided.bind {f : α → Parse β} (h : Decided p) (hf : ∀ a, p = .ok a → Decided (f a)) : Decided (p >>= f) := by
  cases p with
  | error e => cases e with
    | fuel => cases h rfl
    | error e record => exact nofun
  | ok a => exact hf a rfl

theorem Decided.ite {b : Prop} [Decidable b] {p' : Parse α} (h : b → Decided p) (h' : ¬ b → Decided p') :
    Decided (if b then p else p') := by
  split
  · exact h ‹_›
  · exact h' ‹_›

theorem parseEscape_decided {l k : Nat} {r : Reader} : Decided (parseEscape l k r) := by
  unfold parseEscape
  cases r.peek with
  | none => exact decided_refuse
  | some esc =>
    dsimp only
    iterate 6
      refine .ite (fun _ => decided_ok) fun _ => ?_
    apply Decided.ite
    · intro _
      split
      · exact decided_ok
      · exact decided_refuse
    · exact fun _ => decided_refuse

theorem parseStringLoop_decided {l k : Nat} (n : Nat) (r : Reader) (buf : Bytes) (hn : r.rest.length < n) :
    Decided (parseStringLoop l k n r buf) := by
  induction n generalizing r buf with
  | zero => omega
  | succ n ih =>
    unfold parseStringLoop
    cases hpeek : r.peek with
    | none => exact decided_refuse
    | some b =>
      obtain ⟨bs, hr⟩ := rest_of_peek hpeek
      have hrest := rest_advance hr
      have hlt : r.advance.rest.length < n := by
        rw [hrest]
        rw [hr, List.length_cons] at hn
        omega
      refine .ite (fun _ => decided_ok) fun _ => .ite (fun _ => .bind parseEscape_decided fun x hx => ?_)
        fun _ => ih _ _ hlt
      obtain ⟨b', r₁⟩ := x
      obtain ⟨esc, -, hesc, -⟩ := escape_of_parseEscape hx
      rw [hesc, List.length_append] at hlt
      exact ih _ _ (by omega)

theorem parseString_decided {r : Reader} : Decided (parseString r) :=
  .bind (parseStringLoop_decided _ _ _ (Nat.lt_succ_self _)) fun _ _ => decided_ok

theorem parseHash_decided {r : Reader} : Decided (parseHash r) :=
  .ite (fun _ => decided_ok) fun _ => .ite (fun _ => decided_ok) fun _ => decided_refuse

theorem parseNumber_decided {sign : Int} {r : Reader} : Decided (parseNumber sign r) := by
  unfold parseNumber
  rcases readDigits r.rest r 0 false with ⟨none | value, any, r'⟩
  · exact decided_refuse
  · exact .ite (fun _ => decided_refuse) fun _ => .ite (fun _ => decided_refuse) fun _ =>
      .ite (fun _ => decided_refuse) fun _ => decided_ok

theorem parseListLoop_decided (hsome : ∀ r d r', pf r = .ok (some d, r') → Took limit r d r')
    (hnone : ∀ r r', pf r = .ok (none, r') → r' = skipWsAndComments r ∧ r'.peek = none) (n : Nat)
    (elems : List Datum) (r : Reader)
    (hpf : ∀ r', r'.rest.length ≤ r.rest.length → Decided (pf r')) (hn : (skipWsAndComments r).rest.length < n) :
    Decided (parseListLoop pf n elems r) := by
  induction n generalizing elems r with
  | zero => omega
  | succ n ih =>
    have hskip := (past_skip r).length_le
    simp only [parseListLoop]
    cases hpeek : (skipWsAndComments r).peek with
    | none => exact decided_refuse
    | some b =>
      refine .ite (fun _ => decided_ok) fun _ => .ite (fun _ => .ite (fun _ => decided_refuse) fun _ => ?_) fun _ => ?_
      · refine .bind (hpf _ ?_) fun x _ => .ite (fun _ => decided_refuse) fun _ => decided_ok
        exact Nat.le_trans (past_advance _).length_le hskip
      · refine .bind (hpf _ hskip) fun x hx => ?_
        obtain ⟨y, r₁⟩ := x
        cases y with
        | none =>
          obtain ⟨heq, hpeek₁⟩ := hnone _ _ hx
          rw [heq, skip_skip, hpeek] at hpeek₁
          cases hpeek₁
        | some d =>
          have hlt := (hsome _ _ _ hx).2.length_lt
          rw [skip_skip] at hlt
          have hle := (past_skip r₁).length_le
          exact ih _ r₁ (fun r' hr' => hpf r' (by omega)) (by omega)

theorem parseForm_decided (n : Nat) (r : Reader) (hn : r.rest.length < n) : Decided (parseForm limit n r) := by
  induction n generalizing r with
  | zero => omega
  | succ n ih =>
    have hskip := (past_skip r).length_le
    simp only [parseForm]
    cases hpeek : (skipWsAndComments r).peek with
    | none => exact decided_ok
    | some b =>
      obtain ⟨bs, hr⟩ := rest_of_peek hpeek
      have hrest := rest_advance hr
      have hlen : (skipWsAndComments r).advance.rest.length + 1 = (skipWsAndComments r).rest.length := by
        rw [hrest, hr, List.length_cons]
      refine .bind ?_ fun _ _ => decided_ok
      unfold parseDatum
      refine .ite (fun _ => ?_) fun _ => .ite (fun _ => decided_refuse) fun _ => ?_
      · apply Decided.ite
        · exact fun _ => decided_refuse
        · intro hdepth
          have heq : parseList limit (parseForm limit n) _ = _ := parseList_eq (skipWsAndComments r).advance
            (Nat.not_le.1 hdepth)
          unfold parseList at heq
          rw [if_neg hdepth] at heq
          rw [heq]
          refine .bind ?_ fun _ _ => decided_ok
          apply parseListLoop_decided (parseForm_took n) (fun _ _ => parseForm_none)
          · exact fun r' (hr' : r'.rest.length ≤ (skipWsAndComments r).advance.rest.length) => ih r' (by omega)
          · exact Nat.lt_succ_self _
      · refine .ite (fun _ => ?_) fun _ => .ite (fun _ => ?_) fun _ => .ite (fun _ => ?_) fun _ => ?_
        · apply Decided.bind (ih _ (by omega))
          rintro ⟨y, r₁⟩ -
          cases y with
          | none => exact decided_refuse
          | some d => exact decided_ok
        · exact parseString_decided
        · exact parseHash_decided
        · exact .ite (fun _ => parseNumber_decided) fun _ => .ite (fun _ => parseNumber_decided) fun _ => decided_ok

theorem parse_decided (r : Reader) : Decided (parse limit r) := parseForm_decided _ r (Nat.lt_succ_self _)

end Decided
end Microlisp
