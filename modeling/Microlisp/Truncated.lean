import Microlisp.More
/-!
# Texts that end too early

A text that the parser refuses may be the start of one that it takes. The parser reports
`MICROLISP_ERR_READ_TRUNCATED` for most of these, and a syntax error for three kinds.
-/
namespace Microlisp

open Reader

/-! ## Strings cut short -/

/-- Some contents of a string, up to a boundary between two of its bytes. -/
inductive StringPart : Bytes → Bytes → Prop
  | here {rest : Bytes} : StringPart rest rest
  | plain {b : UInt8} {text rest : Bytes} : b ≠ ch '"' → b ≠ ch '\\' → StringPart text rest →
      StringPart (b :: text) rest
  | escape {b : UInt8} {esc text rest : Bytes} : Escape esc b → StringPart text rest →
      StringPart (ch '\\' :: esc ++ text) rest

section Strings
variable {b b' : UInt8} {bytes esc esc' text rest q out x y buf : Bytes} {r r' : Reader} {l k n : Nat}

theorem named_ne_x {e : UInt8} (h : (e, b) ∈ namedEscapes) : e ≠ ch 'x' := by
  rintro rfl
  simp only [namedEscapes, List.mem_cons, Prod.mk.injEq, List.not_mem_nil, or_false] at h
  rcases h with ⟨h, -⟩ | ⟨h, -⟩ | ⟨h, -⟩ | ⟨h, -⟩ | ⟨h, -⟩ | ⟨h, -⟩ <;> cases h

/-- An escape ends where it ends, whatever follows. -/
theorem Escape.unique (h : Escape esc b) (h' : Escape esc' b') (heq : esc ++ x = esc' ++ y) : esc = esc' := by
  cases h with
  | named hmem =>
    cases h' with
    | named hmem' =>
      cases heq
      rfl
    | hex _ _ =>
      cases heq
      exact absurd rfl (named_ne_x hmem)
  | hex hh hl =>
    cases h' with
    | named hmem' =>
      cases heq
      exact absurd rfl (named_ne_x hmem')
    | hex hh' hl' =>
      cases heq
      rfl

theorem StringText.plain_inv (hq : b ≠ ch '"') (hb : b ≠ ch '\\') (h : StringText bytes (b :: text) out) :
    ∃ bytes, StringText bytes text out := by
  generalize ht : b :: text = all at h
  cases h with
  | close => exact absurd (List.cons.inj ht).1 hq
  | plain _ _ h =>
    cases ht
    exact ⟨_, h⟩
  | escape _ _ => exact absurd (List.cons.inj ht).1 hb

theorem StringText.escape_inv (h : StringText bytes (ch '\\' :: text) out) :
    ∃ esc b more bytes, text = esc ++ more ∧ Escape esc b ∧ StringText bytes more out := by
  generalize ht : ch '\\' :: text = all at h
  cases h with
  | close => cases ht
  | plain _ hb _ => exact absurd (List.cons.inj ht).1.symm hb
  | escape hesc h => exact ⟨_, _, _, _, (List.cons.inj ht).2, hesc, h⟩

theorem StringPart.inv (h : StringPart text rest) (hout : StringText bytes (text ++ q) out) :
    ∃ bytes, StringText bytes (rest ++ q) out := by
  induction h generalizing bytes with
  | here => exact ⟨_, hout⟩
  | plain hq hb _ ih =>
    obtain ⟨bytes, hout⟩ := hout.plain_inv hq hb
    exact ih hout
  | @escape b esc text rest hesc _ ih =>
    obtain ⟨esc', b', more, bytes, heq, hesc', hout⟩ :=
      StringText.escape_inv (show StringText bytes (ch '\\' :: (esc ++ text ++ q)) out from hout)
    rw [List.append_assoc] at heq
    obtain rfl := hesc.unique hesc' heq
    rw [← List.append_cancel_left heq] at hout
    exact ih hout

theorem StringPart.complete (h : StringPart text rest) (hout : StringText bytes (rest ++ q) out) :
    ∃ bytes, StringText bytes (text ++ q) out := by
  induction h with
  | here => exact ⟨_, hout⟩
  | plain hq hb _ ih =>
    obtain ⟨bytes, hout⟩ := ih hout
    exact ⟨_, .plain hq hb hout⟩
  | escape hesc _ ih =>
    obtain ⟨bytes, hout⟩ := ih hout
    rw [List.append_assoc]
    exact ⟨_, .escape hesc hout⟩

/-- Why an escape is refused: the text ends, or there is no such escape. -/
theorem parseEscape_refused {e : Status} {record : MlError} (h : parseEscape l k r = .error (.error e record)) :
    (e = .errReadTruncated ∧ r.rest = []) ∨
      e = .errReadSyntax ∧ r.rest ≠ [] ∧ ∀ esc b more, Escape esc b → r.rest ≠ esc ++ more := by
  have hnone : ∀ esc b more, Escape esc b → r.rest ≠ esc ++ more := by
    intro esc b more hesc hr
    rw [parseEscape_of_escape hesc hr] at h
    cases h
  cases hpeek : r.peek with
  | none =>
    unfold parseEscape at h
    rw [hpeek] at h
    cases h
    exact .inl ⟨rfl, peek_eq_none.1 hpeek⟩
  | some b =>
    refine .inr ⟨?_, rest_ne_nil hpeek, hnone⟩
    unfold parseEscape at h
    simp only [hpeek] at h
    iterate 6
      split at h
      · cases h
    split at h
    · split at h
      · cases h
      · cases h
        rfl
    · cases h
      rfl

/-- Why a string is refused: the text ends, or there is no such escape. -/
theorem parseStringLoop_refused {e : Status} {record : MlError} (hn : r.rest.length < n)
    (h : parseStringLoop l k n r buf = .error (.error e record)) :
    ∃ rest, StringPart r.rest rest ∧ ((e = .errReadTruncated ∧ (rest = [] ∨ rest = [ch '\\'])) ∨
      e = .errReadSyntax ∧ ∃ esc, rest = ch '\\' :: esc ∧ esc ≠ [] ∧ ∀ esc' b more, Escape esc' b →
        esc ≠ esc' ++ more) := by
  induction n generalizing r buf with
  | zero => omega
  | succ n ih =>
    simp only [parseStringLoop] at h
    cases hpeek : r.peek with
    | none =>
      rw [hpeek] at h
      cases h
      exact ⟨[], by rw [peek_eq_none.1 hpeek]; exact .here, .inl ⟨rfl, .inl rfl⟩⟩
    | some b =>
      obtain ⟨bs, hr⟩ := rest_of_peek hpeek
      have hrest := rest_advance hr
      simp only [hpeek] at h
      rw [hr, List.length_cons] at hn
      by_cases hq : b = ch '"'
      · rw [if_pos hq] at h
        cases h
      rw [if_neg hq] at h
      by_cases hb : b = ch '\\'
      · rw [if_pos hb] at h
        subst hb
        cases hesc : parseEscape l k r.advance with
        | ok x =>
          obtain ⟨b, r₁⟩ := x
          obtain ⟨esc, hE, hr₁, -⟩ := escape_of_parseEscape hesc
          rw [hesc] at h
          have hlen : r₁.rest.length < n := by
            rw [hrest] at hr₁
            rw [hr₁, List.length_append] at hn
            omega
          obtain ⟨rest, hpart, hwhy⟩ := ih hlen h
          refine ⟨rest, ?_, hwhy⟩
          rw [hr, ← hrest, hr₁]
          exact .escape hE hpart
        | error x =>
          rw [hesc] at h
          cases h
          refine ⟨r.rest, .here, ?_⟩
          rw [hr, ← hrest]
          -- a backslash at the end of the text is no bad escape yet
          rcases parseEscape_refused hesc with ⟨rfl, hend⟩ | ⟨rfl, hne, hnone⟩
          · exact .inl ⟨rfl, .inr (by rw [hend])⟩
          · exact .inr ⟨rfl, _, rfl, hne, hnone⟩
      · rw [if_neg hb] at h
        have hlen : r.advance.rest.length < n := by
          rw [hrest]
          omega
        obtain ⟨rest, hpart, hwhy⟩ := ih hlen h
        refine ⟨rest, ?_, hwhy⟩
        rw [hr, ← hrest]
        exact .plain hq hb hpart

end Strings

/-! ## Three kinds of cuts -/

/-- At this place the text ends where the parser sees a syntax error: after a `#`, inside a
`\xHH` escape, or between the dot of a list and its closing parenthesis. -/
inductive Cut (limit : Nat) (r : Reader) : Prop
  | hash : (skipWsAndComments r).rest = [ch '#'] → Cut limit r
  | hex {text digits : Bytes} : (skipWsAndComments r).rest = ch '"' :: text →
      StringPart text (ch '\\' :: ch 'x' :: digits) →
      (digits = [] ∨ ∃ h x, digits = [h] ∧ hexDigit h = some x) → Cut limit r
  | tail {r' r'' : Reader} {y : Option Datum} : (skipWsAndComments r).peek = some (ch '(') →
      (skipWsAndComments r).depth < limit →
      Items limit r.listStart true r' → Dot (skipWsAndComments r').rest →
      parse limit (skipWsAndComments r').advance = .ok (y, r'') → (skipWsAndComments r'').peek = none → Cut limit r

/-- The text ends in one of these ways. -/
def CutShort (limit : Nat) (r : Reader) : Prop := ∃ lists quotes r', Place limit r lists quotes r' ∧ Cut limit r'

section Refused
variable {limit : Nat} {r r' : Reader} {e : Status} {q : Bytes} {d : Datum}

theorem parseDatum_of_parse {b : UInt8} (hpeek : (skipWsAndComments r).peek = some b)
    (h : parse limit r = .ok (some d, r')) :
    parseDatum limit (parseForm limit r.rest.length) b (skipWsAndComments r) = .ok (d, r') := by
  unfold parse at h
  rw [parseForm_datum hpeek] at h
  cases hp : parseDatum limit (parseForm limit r.rest.length) b (skipWsAndComments r) with
  | error x =>
    rw [hp] at h
    cases h
  | ok y =>
    rw [hp] at h
    cases h
    rfl

/-- A refused number stays refused, though perhaps for another reason. -/
theorem parseNumber_more {sign : Int} (hsign : sign = 1 ∨ sign = -1) (hdigit : r.peek.any isDigit = true)
    (h : parseNumber sign (r.more q) = .ok (d, r')) : ∃ d r', parseNumber sign r = .ok (d, r') := by
  obtain ⟨digits, hrest, hne, hdigits, -, hfits, hterm, -⟩ := digits_of_parseNumber hsign h
  rw [more_rest] at hrest
  rcases List.append_eq_append_iff.1 hrest with ⟨more, rfl, -⟩ | ⟨more, hr, hq⟩
  · -- all that was there are digits of the number
    have hr : r.rest ≠ [] := by
      intro hr
      rw [peek, hr] at hdigit
      cases hdigit
    have hle : digitsValue r.rest ≤ digitsValue (r.rest ++ more) := by
      unfold digitsValue
      rw [List.foldl_append]
      exact le_foldl_addDigit (digitsValue_nonneg r.rest) more
    have hpos := digitsValue_nonneg r.rest
    have hfits' : fitsFixnum (sign * digitsValue r.rest) = true := by
      obtain ⟨hlo, hhi⟩ := fits_iff.1 hfits
      apply fits_iff.2
      rcases hsign with rfl | rfl <;> omega
    exact ⟨_, _, parseNumber_of_digits hsign (List.append_nil _).symm hr
      (fun b hb => hdigits b (List.mem_append_left _ hb)) hfits' rfl⟩
  · have hterm' : isTerminator more.head? = true := by
      cases more with
      | nil => rfl
      | cons b more =>
        rw [hq] at hterm
        exact hterm
    exact ⟨_, _, parseNumber_of_digits hsign hr hne hdigits hfits hterm'⟩

theorem parseHash_more {b : UInt8} {bs : Bytes} (hr : r.rest = ch '#' :: b :: bs)
    (h : parseHash (r.more q) = .ok (d, r')) :
    ∃ d r', parseHash r = .ok (d, r') := by
  obtain ⟨v, hbs, -, hterm, -⟩ :=
    text_of_parseHash (show (r.more q).rest = ch '#' :: (b :: bs ++ q) by rw [more_rest, hr]; rfl) h
  obtain ⟨rfl, hrest⟩ := List.cons.inj hbs
  refine ⟨_, _, parseHash_of_text hr ?_⟩
  cases bs with
  | nil => rfl
  | cons b bs =>
    rw [← show b :: bs ++ q = r'.rest from hrest] at hterm
    exact hterm

theorem parseString_loop {x : Stop} (h : parseString r = .error x) :
    parseStringLoop r.line r.column (r.advance.rest.length + 1) r.advance [] = .error x := by
  unfold parseString at h
  cases hl : parseStringLoop r.line r.column (r.advance.rest.length + 1) r.advance [] with
  | error x =>
    rw [hl] at h
    cases h
    rfl
  | ok x =>
    rw [hl] at h
    cases h

theorem text_of_parseString {text : Bytes} (hr : r.rest = ch '"' :: text) (h : parseString r = .ok (d, r')) :
    ∃ bytes, StringText bytes text r'.rest := by
  unfold parseString at h
  cases hl : parseStringLoop r.line r.column (r.advance.rest.length + 1) r.advance [] with
  | error x =>
    rw [hl] at h
    cases h
  | ok x =>
    rw [hl] at h
    cases h
    obtain ⟨bytes, -, htext, -⟩ := text_of_parseStringLoop hl
    rw [rest_advance hr] at htext
    exact ⟨bytes, htext⟩

/-- A string with a bad escape stays refused, unless the text ends in the escape. -/
theorem parseString_more {record : MlError} {text : Bytes} (hr : r.rest = ch '"' :: text)
    (hp : parseString r = .error (.error e record)) (he : e ≠ .errReadTruncated)
    (h : parseString (r.more q) = .ok (d, r')) :
    ∃ digits, StringPart text (ch '\\' :: ch 'x' :: digits) ∧
      (digits = [] ∨ ∃ h x, digits = [h] ∧ hexDigit h = some x) := by
  have hrest := rest_advance hr
  have hloop := parseString_loop hp
  obtain ⟨rest, hpart, ⟨rfl, -⟩ | ⟨rfl, esc, rfl, hne, hnone⟩⟩ := parseStringLoop_refused (Nat.lt_succ_self _) hloop
  · exact absurd rfl he
  have htext := text_of_parseString (show (r.more q).rest = ch '"' :: (text ++ q) by rw [more_rest, hr]; rfl) h
  rw [hrest] at hpart
  obtain ⟨bytes, htext⟩ := htext
  obtain ⟨bytes, hout⟩ := hpart.inv htext
  obtain ⟨esc', b, more, _, heq, hesc', -⟩ := hout.escape_inv
  -- the escape has more bytes than the text has left
  rcases List.append_eq_append_iff.1 heq with ⟨tl, rfl, -⟩ | ⟨tl, rfl, -⟩
  · have hwhole := hnone _ _ [] hesc'
    generalize hall : esc ++ tl = all at hesc' hwhole
    obtain ⟨e, esc, rfl⟩ := List.exists_cons_of_ne_nil hne
    cases hesc' with
    | named hmem =>
      obtain ⟨rfl, htl⟩ := List.cons.inj hall
      rw [(List.append_eq_nil_iff.1 htl).1] at hwhole
      exact absurd rfl hwhole
    | @hex h l x y hh hl =>
      obtain ⟨rfl, htl⟩ := List.cons.inj hall
      match esc, htl with
      | [], _ => exact ⟨[], hpart, .inl rfl⟩
      | [_], htl =>
        cases htl
        exact ⟨[h], hpart, .inr ⟨h, x, rfl, hh⟩⟩
      | [_, _], htl =>
        cases htl
        exact absurd rfl hwhole
  · exact absurd rfl (hnone _ _ _ hesc')

theorem Fault.peek (h : Fault limit r e) : ∃ b, (skipWsAndComments r).peek = some b ∧ b ≠ ch '.' := by
  cases h with
  | close hpeek => exact ⟨_, hpeek, by decide⟩
  | depth hpeek _ => exact ⟨_, hpeek, by decide⟩
  | unclosed hpeek _ _ _ => exact ⟨_, hpeek, by decide⟩
  | dotFirst hpeek _ _ => exact ⟨_, hpeek, by decide⟩
  | tail hpeek _ _ _ _ _ => exact ⟨_, hpeek, by decide⟩
  | quote hpeek _ => exact ⟨_, hpeek, by decide⟩
  | string hpeek _ => exact ⟨_, hpeek, by decide⟩
  | hash hpeek _ => exact ⟨_, hpeek, by decide⟩
  | number hpeek hdigit _ =>
    refine ⟨_, hpeek, ?_⟩
    rintro rfl
    cases hdigit
  | signed hpeek hsign _ _ =>
    refine ⟨_, hpeek, ?_⟩
    rintro rfl
    rcases hsign with h | h <;> cases h

/-- What is refused for good: more text does not mend it. -/
theorem Fault.more_refused (h : Fault limit r e) (htrunc : e ≠ .errReadTruncated) (hdepth : e ≠ .errReadDepth)
    (hcut : ¬ Cut limit r) (q : Bytes) : ∃ x, parse limit (r.more q) = .error x := by
  obtain ⟨b, hb, -⟩ := h.peek
  have hpeek' := (more_skip_peek (q := q) hb).2
  have hskip := (more_skip_peek (q := q) hb).1
  have hstays : ∀ {e}, Fault limit (r.more q) e → ∃ x, parse limit (r.more q) = .error x :=
    fun h => let ⟨_, hp⟩ := h.reported; ⟨_, hp⟩
  -- a token is refused, or the parser takes it
  have hor : (∃ d r', parse limit (r.more q) = .ok (some d, r')) ∨ ∃ x, parse limit (r.more q) = .error x := by
    cases hp : parse limit (r.more q) with
    | error x => exact .inr ⟨x, rfl⟩
    | ok y =>
      obtain ⟨y, r'⟩ := y
      cases y with
      | none =>
        obtain ⟨rfl, hnone⟩ := parse_eq_none.1 hp
        rw [hpeek'] at hnone
        cases hnone
      | some d => exact .inl ⟨d, r', rfl⟩
  have htoken : (∀ d r', parseDatum limit (parseForm limit (r.more q).rest.length) b
      ((skipWsAndComments r).more q) ≠ .ok (d, r')) →
      ∃ x, parse limit (r.more q) = .error x := by
    intro hnot
    refine hor.resolve_left ?_
    rintro ⟨d, r', hp⟩
    apply hnot d r'
    rw [← hskip]
    exact parseDatum_of_parse hpeek' hp
  -- a fault found before the end of the text is still there; where the end decided, it is a cut
  cases h with
  | close hpeek =>
    rw [hpeek] at hb
    cases hb
    exact hstays (.close hpeek')
  | depth _ _ => exact absurd rfl hdepth
  | unclosed _ _ _ _ => exact absurd rfl htrunc
  | dotFirst hpeek hlt hdot =>
    rw [hpeek] at hb
    cases hb
    apply hstays (.dotFirst hpeek' (by rwa [hskip]) _)
    have hne : (skipWsAndComments r.listStart).rest ≠ [] := by
      obtain ⟨_, _, hr, -⟩ := hdot
      rw [hr]
      exact nofun
    rw [more_listStart hpeek, more_skip hne]
    exact dot_append hdot
  | @tail r' r'' y hpeek hlt hitems hdot htail hclose =>
    rw [hpeek] at hb
    cases hb
    have hsome : (skipWsAndComments r'').peek ≠ none := fun hnone => hcut (.tail hpeek hlt hitems hdot htail hnone)
    obtain ⟨b', hb'⟩ := Option.ne_none_iff_exists'.1 hsome
    cases y with
    | none =>
      obtain ⟨rfl, hnone⟩ := parse_eq_none.1 htail
      rw [skip_skip] at hsome
      exact absurd hnone hsome
    | some d =>
      obtain ⟨_, _, hr, -⟩ := id hdot
      have hne : (skipWsAndComments r').rest ≠ [] := by
        rw [hr]
        exact nofun
      have hmore := more_skip (q := q) hne
      have hend := more_skip_peek (q := q) hb'
      have hitems' : Items limit (r.more q).listStart true (r'.more q) := by
        rw [more_listStart hpeek]
        exact hitems.more (skip_rest_ne_nil hne)
      have hdot' : Dot (skipWsAndComments (r'.more q)).rest := by
        rw [hmore]
        exact dot_append hdot
      have htail' : parse limit (skipWsAndComments (r'.more q)).advance = .ok (some d, r''.more q) := by
        rw [hmore, more_advance hr]
        exact parse_more htail (.inl (skip_rest_ne_nil (rest_ne_nil hb')))
      refine hstays (.tail hpeek' (by rwa [hskip]) hitems' hdot' htail' ?_)
      rw [hend.2, ← hb']
      exact hclose
  | quote _ _ => exact absurd rfl htrunc
  | string hpeek hp =>
    rw [hpeek] at hb
    cases hb
    apply htoken
    intro d r' hok
    obtain ⟨text, hr⟩ := rest_of_peek hpeek
    obtain ⟨digits, hpart, hdigits⟩ := parseString_more hr hp htrunc hok
    exact hcut (.hex hr hpart hdigits)
  | hash hpeek hp =>
    rw [hpeek] at hb
    cases hb
    apply htoken
    intro d r' hok
    obtain ⟨bs, hr⟩ := rest_of_peek hpeek
    cases bs with
    | nil => exact hcut (.hash hr)
    | cons b bs =>
      obtain ⟨d, r', hok⟩ := parseHash_more hr hok
      rw [hp] at hok
      cases hok
  | number hpeek hdigit hp =>
    rw [hpeek] at hb
    cases hb
    apply htoken
    intro d r' hok
    rw [parseDatum_of_digit hdigit] at hok
    obtain ⟨d, r', hok⟩ := parseNumber_more (.inl rfl) (by rw [hpeek]; exact hdigit) hok
    rw [hp] at hok
    cases hok
  | signed hpeek hsign hdigit hp =>
    rw [hpeek] at hb
    cases hb
    apply htoken
    intro d r' hok
    obtain ⟨bs, hr⟩ := rest_of_peek hpeek
    have hsecond : (skipWsAndComments r).peek2 = bs.head? := by
      unfold peek2
      rw [hr]
      cases bs <;> rfl
    have hnext : (skipWsAndComments r).advance.peek.any isDigit = true := by
      rw [Reader.peek, rest_advance hr, ← hsecond]
      exact hdigit
    have hdigit' : ((skipWsAndComments r).more q).peek2.any isDigit = true := by
      rw [hsecond] at hdigit
      unfold peek2
      rw [more_rest, hr]
      cases bs with
      | nil => cases hdigit
      | cons b'' bs => exact hdigit
    rw [parseDatum_of_signed hsign hdigit', more_advance hr] at hok
    have hone : (if b = ch '-' then -1 else 1) = (1 : Int) ∨ (if b = ch '-' then -1 else 1) = (-1 : Int) := by
      split
      · exact .inr rfl
      · exact .inl rfl
    obtain ⟨d, r', hok⟩ := parseNumber_more hone hnext hok
    rw [hp] at hok
    cases hok

end Refused

/-! ## Completing a text -/

theorem Layout.append {bs cs : Bytes} (h : Layout bs) (h' : Layout cs) : Layout (bs ++ cs) := by
  induction h with
  | nil => exact h'
  | space hb _ ih => exact .space hb ih
  | comment ht _ ih =>
    rw [List.append_assoc]
    exact .comment ht ih

/-- A newline ends the last comment. -/
theorem Trailing.layout {bs : Bytes} (h : Trailing bs) : Layout (bs ++ [ch '\n']) := by
  obtain ⟨lay, rest, rfl, hlay, rfl | ⟨text, ht, rfl⟩⟩ := h
  · rw [List.append_nil]
    exact hlay.append (.space (by decide) .nil)
  · rw [List.append_assoc]
    exact hlay.append (.comment ht .nil)

section Complete
variable {limit k : Nat} {r r' r₁ : Reader} {started : Bool} {d : Datum} {q mid : Bytes}

/-- With `q` the text is a form. -/
def Completes (limit : Nat) (r : Reader) (q : Bytes) : Prop :=
  ∃ d, Text .datum (limit - r.depth) d ((skipWsAndComments r).rest ++ q) []

/-- The elements before stay as they are. -/
theorem Items.complete (h : Items limit r started r') (hne : r'.rest ≠ [])
    (hd : ∃ d, Text (.list started) (limit - r.depth) d (r'.rest ++ q) []) :
    ∃ d, Text (.list false) (limit - r.depth) d (r.rest ++ q) [] := by
  induction h with
  | start => exact hd
  | @next started a r' r'' hitems helem htook ih =>
    obtain ⟨d, hd⟩ := hd
    obtain ⟨b, hpeek, -, hdot⟩ := id helem
    obtain ⟨lay, hlay, hrest⟩ := skip_some hpeek
    have htext := htook.2
    rw [skip_skip, (past_skip r').depth, hitems.past.depth] at htext
    have hlen := htext.length_lt
    have hpos := List.length_pos_iff.2 hne
    apply ih (skip_rest_ne_nil helem.rest_ne_nil)
    rw [hrest, List.append_assoc]
    exact ⟨_, .elem hlay (not_dot_append hdot (by omega)) (htext.more fun _ => .inl hne) hd⟩

/-- One more element, and what follows it. -/
theorem Items.complete_elem (h : Items limit r started r') (helem : ElemAt (skipWsAndComments r'))
    (hdot : ¬ Dot ((skipWsAndComments r').rest ++ q))
    (ha : Text .datum (limit - r.depth) d ((skipWsAndComments r').rest ++ q) mid)
    (hd : ∃ d, Text (.list true) (limit - r.depth) d mid []) :
    ∃ d, Text (.list false) (limit - r.depth) d (r.rest ++ q) [] := by
  obtain ⟨b, hpeek, -, -⟩ := id helem
  obtain ⟨lay, hlay, hrest⟩ := skip_some hpeek
  obtain ⟨d, hd⟩ := hd
  apply h.complete (skip_rest_ne_nil helem.rest_ne_nil)
  rw [hrest, List.append_assoc]
  exact ⟨_, .elem hlay hdot ha hd⟩

/-- The tail after a dot, and the end of the list. -/
theorem Items.complete_tail {lay text : Bytes} (h : Items limit r true r') (hdot : Dot (skipWsAndComments r').rest)
    (hlay : Layout lay)
    (hrest : (skipWsAndComments r').advance.rest ++ q = lay ++ text)
    (hd : ∃ d lay', Layout lay' ∧ Text .datum (limit - r.depth) d text (lay' ++ [ch ')'])) :
    ∃ d, Text (.list false) (limit - r.depth) d (r.rest ++ q) [] := by
  obtain ⟨b, bs, hr, hb⟩ := hdot
  obtain ⟨lay₀, hlay₀, hrest₀⟩ := skip_some (peek_of_rest hr)
  obtain ⟨d, lay', hlay', hd⟩ := hd
  have hne : (skipWsAndComments r').rest ≠ [] := by
    rw [hr]
    exact nofun
  apply h.complete (skip_rest_ne_nil hne)
  refine ⟨d, ?_⟩
  rw [rest_advance hr] at hrest
  have hdot' : Dot (ch '.' :: lay ++ text) := ⟨b, bs ++ q, by rw [List.cons_append, ← hrest]; rfl, hb⟩
  have := Text.dotted hlay₀ hlay hlay' hdot' hd
  rw [hrest₀, hr]
  simpa [hrest] using this

theorem completes_list (hpeek : (skipWsAndComments r).peek = some (ch '('))
    (hdepth : (skipWsAndComments r).depth < limit)
    (h : ∃ d, Text (.list false) (limit - r.listStart.depth) d (r.listStart.rest ++ q) []) : Completes limit r q := by
  obtain ⟨d, h⟩ := h
  obtain ⟨bs, hr⟩ := rest_of_peek hpeek
  rw [(past_skip r).depth] at hdepth
  obtain ⟨k, hk⟩ : ∃ k, limit - r.depth = k + 1 := ⟨limit - r.depth - 1, by omega⟩
  refine ⟨d, ?_⟩
  rw [listStart_depth, show limit - (r.depth + 1) = k by omega, show r.listStart.rest = bs from rest_advance hr] at h
  rw [hk, hr]
  exact .list h

theorem completes_quote {bs lay text : Bytes} (hr : (skipWsAndComments r).rest = ch '\'' :: bs)
    (hrest : bs ++ q = lay ++ text)
    (hlay : Layout lay) (h : Text .datum (limit - r.depth) d text []) : Completes limit r q := by
  unfold Completes
  rw [hr, List.cons_append, hrest]
  exact ⟨_, .quote hlay h⟩

theorem text_one {rest : Bytes} (h : isTerminator rest.head? = true) :
    Text .datum k (.fix 1) (ch '1' :: rest) rest := by
  have htext : numberText [ch '1'] 1 :=
    ⟨[], 1, [ch '1'], by decide, by simp, List.all_eq_true.1 (by decide), rfl, by decide⟩
  exact .number htext (by decide) h

/-- A closing parenthesis on a line of its own. -/
theorem text_close {bs : Bytes} (h : Trailing bs) : Text (.list started) k .nil (bs ++ [ch '\n', ch ')']) [] := by
  have hclose : Text (.list started) k .nil ((bs ++ [ch '\n']) ++ ch ')' :: []) [] := .close h.layout
  simpa using hclose

theorem parseNumber_status {sign : Int} {e : Status} {record : MlError}
    (h : parseNumber sign r = .error (.error e record)) :
    e ≠ .errReadTruncated := by
  have hite : ∀ {b : Prop} [Decidable b] {p p' : Parse (Datum × Reader)},
      (p = .error (.error e record) → e ≠ .errReadTruncated) →
      (p' = .error (.error e record) → e ≠ .errReadTruncated) → (if b then p else p') = .error (.error e record) →
      e ≠ .errReadTruncated := by
    intro b _ p p' hp hp' h
    split at h
    · exact hp h
    · exact hp' h
  have hrefuse : ∀ {line column message e'}, e' ≠ .errReadTruncated →
      (refuse line column message e' : Parse (Datum × Reader)) = .error (.error e record) → e ≠ .errReadTruncated := by
    rintro line column message e' he' ⟨⟩
    exact he'
  unfold parseNumber at h
  rcases hread : readDigits r.rest r 0 false with ⟨none | value, any, r'⟩
  · rw [hread] at h
    exact hrefuse (by decide) h
  · rw [hread] at h
    exact hite (hrefuse (by decide)) (hite (hrefuse (by decide)) (hite (hrefuse (by decide)) fun h => by cases h)) h

theorem parseHash_status {e : Status} {record : MlError} (h : parseHash r = .error (.error e record)) :
    e = .errReadSyntax := by
  unfold parseHash at h
  dsimp only at h
  split at h
  · cases h
  · split at h
    · cases h
    · cases h
      rfl

theorem completes_string {bytes text rest : Bytes} (hr : (skipWsAndComments r).rest = ch '"' :: text)
    (hpart : StringPart text rest)
    (h : StringText bytes (rest ++ q) []) : Completes limit r q := by
  obtain ⟨bytes, h⟩ := hpart.complete h
  unfold Completes
  rw [hr]
  exact ⟨_, .string h⟩

/-- A truncated text can be completed at the place where it ends. -/
theorem Fault.completes {e : Status} (h : Fault limit r e) (he : e = .errReadTruncated) :
    ∃ q, q.length ≤ 2 ∧ Completes limit r q := by
  cases h with
  | close _ => cases he
  | depth _ _ => cases he
  | dotFirst _ _ _ => cases he
  | tail _ _ _ _ _ _ => cases he
  | @unclosed _ r' hpeek hdepth hitems hnone =>
    cases hitems with
    | start =>
      exact ⟨[ch '\n', ch ')'], by decide, completes_list hpeek hdepth ⟨.nil, text_close (trailing_of_skip hnone)⟩⟩
    | @next started a r₁ _ hitems helem htook =>
      have htext := htook.2
      rw [skip_skip, (past_skip r₁).depth, hitems.past.depth] at htext
      -- an element that touches the end of the text may go on there
      by_cases hne : r'.rest = []
      · rw [hne] at htext
        by_cases hdot : (skipWsAndComments r₁).rest = [ch '.']
        · -- a lone dot is the start of a symbol
          refine ⟨[ch 'x', ch ')'], by decide, completes_list hpeek hdepth ?_⟩
          have hsymbol : symbolText [ch '.', ch 'x'] :=
            ⟨nofun, fun b hb => by rcases List.mem_pair.1 hb with rfl | rfl <;> decide, by simp [startsOther]; decide⟩
          have hnot : ¬ Dot ((skipWsAndComments r₁).rest ++ [ch 'x', ch ')']) := by
            rw [hdot]
            rintro ⟨_, _, ⟨⟩, hb⟩
            cases hb
          have hdotted : Text .datum (limit - r.listStart.depth) (.sym [ch '.', ch 'x'])
              ((skipWsAndComments r₁).rest ++ [ch 'x', ch ')']) [ch ')'] := by
            rw [hdot]
            exact .symbol hsymbol rfl
          exact hitems.complete_elem helem hnot hdotted ⟨.nil, .close .nil⟩
        -- a line break ends a comment and closes a token
        · refine ⟨[ch '\n', ch ')'], by decide, completes_list hpeek hdepth ?_⟩
          obtain ⟨_, _, _, hnot⟩ := helem.more (q := [ch '\n', ch ')']) hdot
          exact hitems.complete_elem helem hnot (htext.more fun _ => .inr rfl)
            ⟨.nil, text_close ⟨[], [], rfl, .nil, .inl rfl⟩⟩
      · refine ⟨[ch '\n', ch ')'], by decide, completes_list hpeek hdepth ?_⟩
        exact (hitems.next helem htook).complete hne ⟨.nil, text_close (trailing_of_skip hnone)⟩
  | @quote r' hpeek hnone =>
    obtain ⟨bs, hr⟩ := rest_of_peek hpeek
    obtain ⟨rfl, hend⟩ := parse_eq_none.1 hnone
    have htrailing := trailing_of_skip hend
    rw [rest_advance hr] at htrailing
    exact ⟨[ch '\n', ch '1'], by decide, completes_quote hr (by simp) htrailing.layout (text_one rfl)⟩
  | string hpeek hp =>
    obtain ⟨text, hr⟩ := rest_of_peek hpeek
    have hloop := parseString_loop hp
    obtain ⟨rest, hpart, ⟨-, rfl | rfl⟩ | ⟨rfl, -⟩⟩ := parseStringLoop_refused (Nat.lt_succ_self _) hloop
    · rw [rest_advance hr] at hpart
      exact ⟨[ch '"'], by decide, completes_string hr hpart .close⟩
    · rw [rest_advance hr] at hpart
      have hesc : Escape [ch 'n'] (ch '\n') := .named (by decide)
      have hout : StringText _ (ch '\\' :: [ch 'n'] ++ [ch '"']) [] := .escape hesc .close
      exact ⟨[ch 'n', ch '"'], by decide, completes_string hr hpart hout⟩
    · cases he
  | hash _ hp =>
    rw [parseHash_status hp] at he
    cases he
  | number _ _ hp => exact absurd he (parseNumber_status hp)
  | signed _ _ _ hp => exact absurd he (parseNumber_status hp)

theorem Cut.completes (h : Cut limit r) : ∃ q, q.length ≤ 3 ∧ Completes limit r q := by
  cases h with
  | hash hr =>
    refine ⟨[ch 't'], by decide, ?_⟩
    unfold Completes
    rw [hr]
    exact ⟨_, .bool (b := true) rfl⟩
  | hex hr hpart hdigits =>
    rcases hdigits with rfl | ⟨h, x, rfl, hx⟩
    · have hesc : Escape [ch 'x', ch '0', ch '0'] _ := .hex (x := 0) (y := 0) rfl rfl
      have hout : StringText _ (ch '\\' :: [ch 'x', ch '0', ch '0'] ++ [ch '"']) [] := .escape hesc .close
      exact ⟨[ch '0', ch '0', ch '"'], by decide, completes_string hr hpart hout⟩
    · have hesc : Escape [ch 'x', h, ch '0'] _ := .hex (y := 0) hx rfl
      have hout : StringText _ (ch '\\' :: [ch 'x', h, ch '0'] ++ [ch '"']) [] := .escape hesc .close
      exact ⟨[ch '0', ch '"'], by decide, completes_string hr hpart hout⟩
  | @tail r' r'' y hpeek hdepth hitems hdot htail hnone =>
    have htrailing := trailing_of_skip hnone
    cases y with
    | none =>
      -- there is no tail yet
      obtain ⟨rfl, hend⟩ := parse_eq_none.1 htail
      refine ⟨[ch '\n', ch '1', ch ')'], by decide, completes_list hpeek hdepth ?_⟩
      have hsplit : (skipWsAndComments r').advance.rest ++ [ch '\n', ch '1', ch ')']
          = ((skipWsAndComments r').advance.rest ++ [ch '\n']) ++ [ch '1', ch ')'] := by simp
      exact hitems.complete_tail hdot (trailing_of_skip hend).layout hsplit ⟨_, [], .nil, text_one rfl⟩
    | some a =>
      refine ⟨[ch '\n', ch ')'], by decide, completes_list hpeek hdepth ?_⟩
      have htext := (parse_eq_some.1 htail).2
      rw [depth_advance, (past_skip r').depth, hitems.past.depth] at htext
      obtain ⟨b, bs, hb, -⟩ := htext.opens
      obtain ⟨lay, hlay, hrest⟩ := skip_some (peek_of_rest hb)
      have hsplit : (skipWsAndComments r').advance.rest ++ [ch '\n', ch ')']
          = lay ++ ((skipWsAndComments (skipWsAndComments r').advance).rest ++ [ch '\n', ch ')']) := by
        rw [hrest, List.append_assoc]
      apply hitems.complete_tail hdot hlay hsplit
      have hmore := htext.more (q := [ch '\n', ch ')']) fun _ => .inr rfl
      refine ⟨a, r''.rest ++ [ch '\n'], htrailing.layout, ?_⟩
      simpa using hmore

/-- What completes the form inside completes the form around it, with a closing parenthesis
for a list. -/
theorem Inside.completes {flag : Bool} (h : Inside limit r flag r₁) (hne : (skipWsAndComments r₁).rest ≠ [])
    (hdot : (skipWsAndComments r₁).rest ≠ [ch '.']) (hq : Completes limit r₁ q) :
    ∃ q', q'.length ≤ q.length + (if flag then 2 else 0) ∧ Completes limit r q' := by
  have hdepth := h.depth
  obtain ⟨d, hd⟩ := hq
  obtain ⟨b, bs, hb⟩ := List.exists_cons_of_ne_nil hne
  obtain ⟨lay, hlay, hrest⟩ := skip_some (peek_of_rest hb)
  cases h with
  | quote hpeek =>
    obtain ⟨more, hr⟩ := rest_of_peek hpeek
    rw [rest_advance hr] at hrest
    have hd' : Text .datum (limit - r.depth) d ((skipWsAndComments (skipWsAndComments r).advance).rest ++ q) [] := by
      simpa [hdepth, (past_skip r).depth] using hd
    exact ⟨q, Nat.le_refl _, completes_quote hr (by rw [hrest, List.append_assoc]) hlay hd'⟩
  | @elem started r' hpeek hlt hitems helem =>
    rw [skip_skip] at hdot hd
    have hdepth' : (skipWsAndComments r').depth = r.listStart.depth := (past_skip r').depth.trans hitems.past.depth
    have hmore := hd.more (q := [ch '\n', ch ')']) fun _ => .inr rfl
    rw [hdepth', List.append_assoc] at hmore
    obtain ⟨_, _, _, hnot⟩ := helem.more (q := q ++ [ch '\n', ch ')']) hdot
    refine ⟨q ++ [ch '\n', ch ')'], by simp, completes_list hpeek hlt ?_⟩
    exact hitems.complete_elem helem hnot hmore ⟨.nil, text_close ⟨[], [], rfl, .nil, .inl rfl⟩⟩
  | @tail r' hpeek hlt hitems hdot' =>
    have hdepth' : (skipWsAndComments r').advance.depth = r.listStart.depth :=
      depth_advance.trans ((past_skip r').depth.trans hitems.past.depth)
    have hmore := hd.more (q := [ch '\n', ch ')']) fun _ => .inr rfl
    rw [hdepth', List.append_assoc] at hmore
    refine ⟨q ++ [ch '\n', ch ')'], by simp, completes_list hpeek hlt ?_⟩
    apply hitems.complete_tail hdot' hlay
    · rw [hrest, List.append_assoc]
    · exact ⟨d, [ch '\n'], .space (by decide) .nil, hmore⟩

theorem Place.completes {lists quotes n : Nat} (h : Place limit r lists quotes r')
    (hne : (skipWsAndComments r').rest ≠ [])
    (hdot : (skipWsAndComments r').rest ≠ [ch '.']) (hq : ∃ q, q.length ≤ n ∧ Completes limit r' q) :
    ∃ q, q.length ≤ n + 2 * lists ∧ Completes limit r q := by
  have hopen : ∀ (b : UInt8) (bs : Bytes), b = ch '(' ∨ b = ch '\'' → b :: bs ≠ [] ∧ b :: bs ≠ [ch '.'] := by
    rintro b bs (rfl | rfl)
    · exact ⟨nofun, fun heq => by cases heq⟩
    · exact ⟨nofun, fun heq => by cases heq⟩
  induction h with
  | here => exact hq
  | list hin hplace ih =>
    obtain ⟨q, hlen, hq⟩ := ih hne hdot hq
    obtain ⟨hne₁, hdot₁⟩ := hplace.start (p := fun bs => bs ≠ [] ∧ bs ≠ [ch '.']) ⟨hne, hdot⟩ hopen
    obtain ⟨q', hlen', hq'⟩ := hin.completes hne₁ hdot₁ hq
    simp only [if_true] at hlen'
    exact ⟨q', by omega, hq'⟩
  | quote hin hplace ih =>
    obtain ⟨q, hlen, hq⟩ := ih hne hdot hq
    obtain ⟨hne₁, hdot₁⟩ := hplace.start (p := fun bs => bs ≠ [] ∧ bs ≠ [ch '.']) ⟨hne, hdot⟩ hopen
    obtain ⟨q', hlen', hq'⟩ := hin.completes hne₁ hdot₁ hq
    simp only [Bool.false_eq_true, if_false] at hlen'
    exact ⟨q', by omega, hq'⟩

theorem Completes.parse (hne : (skipWsAndComments r).rest ≠ []) (h : Completes limit r q) :
    ∃ d r', Microlisp.parse limit (r.more q) = .ok (some d, r') := by
  obtain ⟨d, h⟩ := h
  have htext : Text .datum (limit - r.depth) d (skipWsAndComments (r.more q)).rest [] := by
    rw [more_skip hne]
    exact h
  obtain ⟨r', hp, -⟩ := parse_of_text htext (Nat.le_refl _)
  exact ⟨d, r', hp⟩

/-! ## What the statuses say -/

theorem Cut.start (h : Cut limit r) : (skipWsAndComments r).rest ≠ [] ∧ (skipWsAndComments r).rest ≠ [ch '.'] := by
  cases h with
  | hash hr =>
    rw [hr]
    decide
  | hex hr _ _ =>
    rw [hr]
    exact ⟨nofun, fun heq => by cases heq⟩
  | tail hpeek _ _ _ _ _ =>
    obtain ⟨bs, hr⟩ := rest_of_peek hpeek
    rw [hr]
    exact ⟨nofun, fun heq => by cases heq⟩

/-- A cut hex escape is not mended by bytes that are no hex digits. -/
theorem hex_not_text {bytes digits out : Bytes} {b : UInt8} (hdigits : digits = [] ∨ ∃ h x, digits = [h] ∧
    hexDigit h = some x)
    (hb : hexDigit b = none) : ¬ StringText bytes (ch '\\' :: ch 'x' :: digits ++ b :: q) out := by
  intro h
  obtain ⟨esc, b', more, bytes, heq, hesc, -⟩ := StringText.escape_inv h
  cases hesc with
  | named hmem =>
    exact named_ne_x hmem (List.cons.inj heq).1.symm
  | hex hx hy =>
    rcases hdigits with rfl | ⟨h, x, rfl, -⟩
    · cases heq
      rw [hb] at hx
      cases hx
    · cases heq
      rw [hb] at hy
      cases hy

/-- A cut is reported as a syntax error. -/
theorem Cut.fault (h : Cut limit r) : Fault limit r .errReadSyntax := by
  cases h with
  | hash hr =>
    cases hp : parseHash (skipWsAndComments r) with
    | error x =>
      obtain ⟨e, record, rfl⟩ := parseHash_decided.error hp
      rw [parseHash_status hp] at hp
      exact .hash (peek_of_rest hr) hp
    | ok y =>
      obtain ⟨b, hbs, -⟩ := text_of_parseHash hr hp
      cases hbs
  | @hex text digits hr hpart hdigits =>
    have hcut : ∀ {bytes q out b}, hexDigit b = none → ¬ StringText bytes (text ++ b :: q) out := by
      intro bytes q out b hb htext
      obtain ⟨_, hout⟩ := hpart.inv htext
      exact hex_not_text hdigits hb hout
    cases hp : parseString (skipWsAndComments r) with
    | ok y =>
      obtain ⟨bytes, htext⟩ := text_of_parseString hr hp
      exact absurd (htext.more (q := [ch '"'])) (hcut rfl)
    | error x =>
      obtain ⟨e, record, rfl⟩ := parseString_decided.error hp
      have hrest := rest_advance hr
      obtain ⟨rest, hpart', ⟨-, rfl | rfl⟩ | ⟨rfl, -⟩⟩ := parseStringLoop_refused (Nat.lt_succ_self _)
        (parseString_loop hp)
      · obtain ⟨bytes, htext⟩ := hpart'.complete (q := [ch '"']) .close
        rw [hrest] at htext
        exact absurd htext (hcut rfl)
      · have hesc : Escape [ch 'n'] (ch '\n') := .named (by decide)
        have hout : StringText _ (ch '\\' :: [ch 'n'] ++ [ch '"']) [] := .escape hesc .close
        obtain ⟨bytes, htext⟩ := hpart'.complete (q := [ch 'n', ch '"']) hout
        rw [hrest] at htext
        exact absurd htext (hcut rfl)
      · exact .string (peek_of_rest hr) hp
  | tail hpeek hdepth hitems hdot htail hnone =>
    refine .tail hpeek hdepth hitems hdot htail ?_
    rw [hnone]
    exact nofun

theorem CutShort.refused (h : CutShort limit r) :
    ∃ record, Microlisp.parse limit r = .error (.error .errReadSyntax record) := by
  obtain ⟨lists, quotes, r', hplace, hcut⟩ := h
  obtain ⟨record, hp⟩ := hcut.fault.reported
  exact ⟨record, hplace.error hp⟩

/-- What is truncated or cut short is the start of a longer text, and a short one. -/
theorem parse_completes {e : Status} {record : MlError} (hp : Microlisp.parse limit r = .error (.error e record))
    (h : e = .errReadTruncated ∨ CutShort limit r) :
    ∃ q d r', q.length ≤ 3 + 2 * r.rest.length ∧ Microlisp.parse limit (r.more q) = .ok (some d, r') := by
  have hplace : ∃ lists quotes r', Place limit r lists quotes r' ∧ (skipWsAndComments r').rest ≠ [] ∧
      (skipWsAndComments r').rest ≠ [ch '.'] ∧ ∃ q, q.length ≤ 3 ∧ Completes limit r' q := by
    rcases h with he | ⟨lists, quotes, r', hplace, hcut⟩
    · obtain ⟨lists, quotes, r', hplace, hfault⟩ := parse_error hp
      obtain ⟨b, hpeek, hb⟩ := hfault.peek
      obtain ⟨q, hlen, hq⟩ := hfault.completes he
      refine ⟨lists, quotes, r', hplace, rest_ne_nil hpeek, ?_, q, by omega, hq⟩
      obtain ⟨bs, hr⟩ := rest_of_peek hpeek
      rw [hr]
      rintro ⟨⟩
      exact hb rfl
    · exact ⟨lists, quotes, r', hplace, hcut.start.1, hcut.start.2, hcut.completes⟩
  obtain ⟨lists, quotes, r', hplace, hne, hdot, hq⟩ := hplace
  have hlists := hplace.lists_le_length
  have hstart : (skipWsAndComments r).rest ≠ [] := hplace.start (p := (· ≠ [])) hne fun _ _ _ => nofun
  obtain ⟨q, hlen, hq⟩ := hplace.completes hne hdot hq
  obtain ⟨d, r'', hok⟩ := hq.parse hstart
  exact ⟨q, d, r'', by omega, hok⟩

/-- What is refused for another reason is refused for good. -/
theorem parse_more_refused {e : Status} {record : MlError} (hp : Microlisp.parse limit r = .error (.error e record))
    (htrunc : e ≠ .errReadTruncated) (hdepth : e ≠ .errReadDepth) (hcut : ¬ CutShort limit r) (q : Bytes) :
    ∃ x, Microlisp.parse limit (r.more q) = .error x := by
  obtain ⟨lists, quotes, r', hplace, hfault⟩ := parse_error hp
  obtain ⟨b, hpeek, hb⟩ := hfault.peek
  obtain ⟨bs, hr⟩ := rest_of_peek hpeek
  have hdot : (skipWsAndComments r').rest ≠ [ch '.'] := by
    rw [hr]
    rintro ⟨⟩
    exact hb rfl
  obtain ⟨x, hx⟩ := hfault.more_refused htrunc hdepth (fun hc => hcut ⟨lists, quotes, r', hplace, hc⟩) q
  exact ⟨x, (hplace.more hdot).error hx⟩

end Complete
end Microlisp
