import Microlisp.Accepts
/-!
# Forms inside one another

Where in a text the reader comes to read a form, while it is still reading the forms around
it: lists that are not closed yet, and quote marks whose datum is not read yet.
-/
namespace Microlisp

open Reader

/-! ## A higher count -/

/-- The second answer is the first, unless the count ran out in the first. -/
def Raised {α : Type} (p p' : Parse α) : Prop := p = .error .fuel ∨ p' = p

section Raised
variable {α β : Type} {p p' : Parse α} {limit : Nat} {pf pf' : Reader → Parse (Option Datum × Reader)}

theorem Raised.refl (p : Parse α) : Raised p p := .inr rfl

theorem Raised.bind {f f' : α → Parse β} (h : Raised p p') (hf : ∀ a, Raised (f a) (f' a)) :
    Raised (p >>= f) (p' >>= f') := by
  rcases h with rfl | rfl
  · exact .inl rfl
  · cases p' with
    | error e => exact .inr rfl
    | ok a => exact hf a

theorem Raised.ite {b : Prop} [Decidable b] {q q' : Parse α} (h : Raised p p') (h' : Raised q q') :
    Raised (if b then p else q) (if b then p' else q') := by
  split
  · exact h
  · exact h'

theorem parseListLoop_raised (hpf : ∀ r, Raised (pf r) (pf' r)) (n : Nat) (elems : List Datum) (r : Reader) :
    Raised (parseListLoop pf n elems r) (parseListLoop pf' n elems r) := by
  induction n generalizing elems r with
  | zero => exact .inl rfl
  | succ n ih =>
    simp only [parseListLoop]
    cases (skipWsAndComments r).peek with
    | none => exact .refl _
    | some b =>
      apply Raised.ite (.refl _)
      apply Raised.ite
      · exact .ite (.refl _) ((hpf _).bind fun _ => .refl _)
      · exact (hpf _).bind fun _ => ih _ _

theorem parseDatum_raised (hpf : ∀ r, Raised (pf r) (pf' r)) (b : UInt8) (r : Reader) :
    Raised (parseDatum limit pf b r) (parseDatum limit pf' b r) := by
  apply Raised.ite
  · exact .ite (.refl _) (.ite (.refl _) ((parseListLoop_raised hpf _ _ _).bind fun _ => .refl _))
  · apply Raised.ite (.refl _)
    exact .ite ((hpf _).bind fun _ => .refl _) (.refl _)

theorem parseForm_raised {n m : Nat} (h : n ≤ m) (r : Reader) : Raised (parseForm limit n r) (parseForm limit m r) := by
  induction n generalizing m r with
  | zero => exact .inl rfl
  | succ n ih =>
    obtain ⟨m, rfl⟩ : ∃ i, m = i + 1 := ⟨m - 1, by omega⟩
    simp only [parseForm]
    cases (skipWsAndComments r).peek with
    | none => exact .refl _
    | some b => exact (parseDatum_raised (fun r => ih (by omega) r) b _).bind fun _ => .refl _

/-- A count that did not run out gives the answer of the parser. -/
theorem parseForm_eq {n : Nat} {r : Reader} (h : parseForm limit n r ≠ .error .fuel) :
    parseForm limit n r = parse limit r := by
  rcases Nat.le_total n (r.rest.length + 1) with hn | hn
  · rcases parseForm_raised hn r with hfuel | heq
    · exact absurd hfuel h
    · exact heq.symm
  · have hraised : Raised (parse limit r) (parseForm limit n r) := parseForm_raised hn r
    rcases hraised with hfuel | heq
    · exact absurd hfuel (parse_decided r)
    · exact heq

end Raised

/-! ## Places -/

/-- An element of a list starts here. -/
def ElemAt (r : Reader) : Prop := ∃ b, r.peek = some b ∧ b ≠ ch ')' ∧ ¬ Dot r.rest

/-- From the start of a list, past some elements; with the flag, past one at least. -/
inductive Items (limit : Nat) (r : Reader) : Bool → Reader → Prop
  | start : Items limit r false r
  | next {started : Bool} {a : Datum} {r' r'' : Reader} : Items limit r started r' → ElemAt (skipWsAndComments r') →
      Took limit (skipWsAndComments r') a r'' → Items limit r true r''

/-- The reader in the list that is opened here. -/
def Reader.listStart (r : Reader) : Reader :=
  { (skipWsAndComments r).advance with depth := (skipWsAndComments r).depth + 1 }

/-- To read the form at `r`, the reader reads the form at the second place; the flag tells a
list from a quote mark. -/
inductive Inside (limit : Nat) (r : Reader) : Bool → Reader → Prop
  | quote : (skipWsAndComments r).peek = some (ch '\'') → Inside limit r false (skipWsAndComments r).advance
  | elem {started : Bool} {r' : Reader} : (skipWsAndComments r).peek = some (ch '(') →
      (skipWsAndComments r).depth < limit →
      Items limit r.listStart started r' → ElemAt (skipWsAndComments r') → Inside limit r true (skipWsAndComments r')
  | tail {r' : Reader} : (skipWsAndComments r).peek = some (ch '(') → (skipWsAndComments r).depth < limit →
      Items limit r.listStart true r' → Dot (skipWsAndComments r').rest →
        Inside limit r true (skipWsAndComments r').advance

/-- At the second place, that many lists and that many quote marks are open. -/
inductive Place (limit : Nat) : Reader → Nat → Nat → Reader → Prop
  | here {r : Reader} : Place limit r 0 0 r
  | list {r r₁ r' : Reader} {lists quotes : Nat} : Inside limit r true r₁ → Place limit r₁ lists quotes r' →
      Place limit r (lists + 1) quotes r'
  | quote {r r₁ r' : Reader} {lists quotes : Nat} : Inside limit r false r₁ → Place limit r₁ lists quotes r' →
      Place limit r lists (quotes + 1) r'

section Places
variable {limit lists quotes n : Nat} {r r' r₁ : Reader} {flag : Bool}

theorem listStart_depth : r.listStart.depth = r.depth + 1 := congrArg (· + 1) (past_skip r).depth

theorem Items.past (h : Items limit r flag r') : r.Past r' := by
  induction h with
  | start => exact .refl r
  | next _ _ htook ih => exact ih.trans ((past_skip _).trans htook.1)

theorem Inside.depth (h : Inside limit r flag r₁) : r₁.depth = r.depth + (if flag then 1 else 0) := by
  cases h with
  | quote _ => exact depth_advance.trans (past_skip r).depth
  | elem _ _ hitems _ => exact ((past_skip _).depth.trans hitems.past.depth).trans listStart_depth
  | tail _ _ hitems _ => exact depth_advance.trans (((past_skip _).depth.trans hitems.past.depth).trans listStart_depth)

theorem Inside.depth_le (h : Inside limit r true r₁) : r₁.depth ≤ limit := by
  have hdepth := h.depth
  have hskip := (past_skip r).depth
  cases h with
  | elem _ hlt _ _ =>
    simp only [if_true] at hdepth
    omega
  | tail _ hlt _ _ =>
    simp only [if_true] at hdepth
    omega

theorem Inside.length_lt (h : Inside limit r flag r₁) : r₁.rest.length < r.rest.length := by
  have hadvance : ∀ {b}, (skipWsAndComments r).peek = some b →
      (skipWsAndComments r).advance.rest.length < r.rest.length := by
    intro b hpeek
    obtain ⟨bs, hr⟩ := rest_of_peek hpeek
    have hlen := (past_skip r).length_le
    rw [hr, List.length_cons] at hlen
    rw [rest_advance hr]
    omega
  cases h with
  | quote hpeek => exact hadvance hpeek
  | elem hpeek _ hitems _ =>
    exact Nat.lt_of_le_of_lt ((past_skip _).length_le.trans hitems.past.length_le) (hadvance hpeek)
  | tail hpeek _ hitems hdot =>
    have hle := (past_skip _).length_le.trans hitems.past.length_le
    obtain ⟨b, bs, hr, -⟩ := hdot
    have hlt := hadvance hpeek
    rw [hr, List.length_cons, List.length_cons] at hle
    rw [rest_advance hr, List.length_cons]
    exact Nat.lt_trans (Nat.lt_of_succ_le hle) hlt

/-- Each open list has taken a byte. -/
theorem Place.lists_le_length (h : Place limit r lists quotes r') : lists ≤ r.rest.length := by
  induction h with
  | here => exact Nat.zero_le _
  | list hin _ ih => exact Nat.succ_le_of_lt (Nat.lt_of_le_of_lt ih hin.length_lt)
  | quote hin _ ih => exact Nat.le_of_lt (Nat.lt_of_le_of_lt ih hin.length_lt)

/-- Lists are open up to the limit. -/
theorem Place.lists_le (h : Place limit r lists quotes r') : lists ≤ limit - r.depth := by
  induction h with
  | here => exact Nat.zero_le _
  | list hin _ ih =>
    have hdepth := hin.depth
    have hle := hin.depth_le
    simp only [if_true] at hdepth
    omega
  | quote hin _ ih =>
    have hdepth := hin.depth
    simp only [Bool.false_eq_true, if_false] at hdepth
    omega

end Places
/-! ## Faults -/

/-- The text is refused at this place, with this status, and not inside it. -/
inductive Fault (limit : Nat) (r : Reader) : Status → Prop
  | close : (skipWsAndComments r).peek = some (ch ')') → Fault limit r .errReadSyntax
  | depth : (skipWsAndComments r).peek = some (ch '(') → limit ≤ (skipWsAndComments r).depth →
      Fault limit r .errReadDepth
  | unclosed {started : Bool} {r' : Reader} : (skipWsAndComments r).peek = some (ch '(') →
      (skipWsAndComments r).depth < limit →
      Items limit r.listStart started r' → (skipWsAndComments r').peek = none → Fault limit r .errReadTruncated
  | dotFirst : (skipWsAndComments r).peek = some (ch '(') → (skipWsAndComments r).depth < limit →
      Dot (skipWsAndComments r.listStart).rest → Fault limit r .errReadSyntax
  | tail {r' r'' : Reader} {y : Option Datum} : (skipWsAndComments r).peek = some (ch '(') →
      (skipWsAndComments r).depth < limit →
      Items limit r.listStart true r' → Dot (skipWsAndComments r').rest →
      parse limit (skipWsAndComments r').advance = .ok (y, r'') → (skipWsAndComments r'').peek ≠ some (ch ')') →
      Fault limit r .errReadSyntax
  | quote {r' : Reader} : (skipWsAndComments r).peek = some (ch '\'') →
      parse limit (skipWsAndComments r).advance = .ok (none, r') →
      Fault limit r .errReadTruncated
  | string {e : Status} {record : MlError} : (skipWsAndComments r).peek = some (ch '"') →
      parseString (skipWsAndComments r) = .error (.error e record) → Fault limit r e
  | hash {e : Status} {record : MlError} : (skipWsAndComments r).peek = some (ch '#') →
      parseHash (skipWsAndComments r) = .error (.error e record) → Fault limit r e
  | number {b : UInt8} {e : Status} {record : MlError} : (skipWsAndComments r).peek = some b → isDigit b = true →
      parseNumber 1 (skipWsAndComments r) = .error (.error e record) → Fault limit r e
  | signed {b : UInt8} {e : Status} {record : MlError} : (skipWsAndComments r).peek = some b → b = ch '+' ∨ b = ch '-' →
      (skipWsAndComments r).peek2.any isDigit = true →
      parseNumber (if b = ch '-' then -1 else 1) (skipWsAndComments r).advance = .error (.error e record) →
        Fault limit r e

/-- The text is refused at this place or inside it. -/
def Blamed (limit n : Nat) (r : Reader) (x : Stop) : Prop :=
  (∃ flag r₁, Inside limit r flag r₁ ∧ parseForm limit n r₁ = .error x) ∨ ∃ e record, x = .error e record ∧
    Fault limit r e

section Faults
variable {limit n : Nat} {r r' : Reader} {x : Stop}

theorem Decided.error {α : Type} {p : Parse α} (h : Decided p) (hp : p = .error x) :
    ∃ e record, x = .error e record := by
  cases x with
  | fuel => exact absurd hp h
  | error e record => exact ⟨e, record, rfl⟩

theorem parseForm_ok {y : Option Datum} (h : parseForm limit n r = .ok (y, r')) : parse limit r = .ok (y, r') := by
  rw [← parseForm_eq, h]
  rw [h]
  exact nofun

theorem parseListLoop_blamed (hopen : (skipWsAndComments r).peek = some (ch '('))
    (hdepth : (skipWsAndComments r).depth < limit)
    (m : Nat) {elems : List Datum} (hitems : Items limit r.listStart (!elems.isEmpty) r')
    (hm : (skipWsAndComments r').rest.length < m) (h : parseListLoop (parseForm limit n) m elems r' = .error x) :
    Blamed limit n r x := by
  -- an error is passed on from a form inside, or it is found in the list itself
  induction m generalizing elems r' with
  | zero => omega
  | succ m ih =>
    simp only [parseListLoop] at h
    cases hpeek : (skipWsAndComments r').peek with
    | none =>
      rw [hpeek] at h
      cases h
      exact .inr ⟨_, _, rfl, .unclosed hopen hdepth hitems hpeek⟩
    | some b =>
      obtain ⟨bs, hr⟩ := rest_of_peek hpeek
      simp only [hpeek] at h
      by_cases hclose : b = ch ')'
      · rw [if_pos hclose] at h
        cases h
      rw [if_neg hclose] at h
      by_cases hdot : (decide (b = ch '.') && (skipWsAndComments r').peek2.isSome
          && isTerminator (skipWsAndComments r').peek2) = true
      · rw [if_pos hdot] at h
        rw [dot_iff hr] at hdot
        by_cases helems : elems = []
        · rw [if_pos helems] at h
          cases h
          subst helems
          cases hitems
          exact .inr ⟨_, _, rfl, .dotFirst hopen hdepth hdot⟩
        rw [if_neg helems] at h
        rw [show (!elems.isEmpty) = true by simpa using helems] at hitems
        cases hp : parseForm limit n (skipWsAndComments r').advance with
        | error x' =>
          rw [hp] at h
          cases h
          exact .inl ⟨true, _, .tail hopen hdepth hitems hdot, hp⟩
        | ok y =>
          obtain ⟨y, r₁⟩ := y
          rw [hp] at h
          simp only [bind, Except.bind] at h
          by_cases hclose' : (skipWsAndComments r₁).peek = some (ch ')')
          · rw [if_neg (not_not.2 hclose')] at h
            cases h
          · rw [if_pos hclose'] at h
            cases h
            exact .inr ⟨_, _, rfl, .tail hopen hdepth hitems hdot (parseForm_ok hp) hclose'⟩
      · rw [if_neg hdot] at h
        rw [dot_iff hr] at hdot
        have helem : ElemAt (skipWsAndComments r') := ⟨b, hpeek, hclose, hdot⟩
        cases hp : parseForm limit n (skipWsAndComments r') with
        | error x' =>
          rw [hp] at h
          cases h
          exact .inl ⟨true, _, .elem hopen hdepth hitems helem, hp⟩
        | ok y =>
          obtain ⟨y, r₁⟩ := y
          rw [hp] at h
          cases y with
          | none =>
            obtain ⟨heq, hpeek₁⟩ := parseForm_none hp
            rw [heq, skip_skip, hpeek] at hpeek₁
            cases hpeek₁
          | some d =>
            have htook := parseForm_took _ _ _ _ hp
            have hlt := htook.2.length_lt
            rw [skip_skip] at hlt
            have hle := (past_skip r₁).length_le
            have hstarted : (!(elems ++ [d]).isEmpty) = true := by simp
            have hlen : (skipWsAndComments r₁).rest.length < m := by omega
            -- the element was read, so the error comes later
            exact ih (hstarted ▸ hitems.next helem htook) hlen h

theorem parseForm_blamed (h : parseForm limit (n + 1) r = .error x) : Blamed limit n r x := by
  simp only [parseForm] at h
  cases hpeek : (skipWsAndComments r).peek with
  | none =>
    rw [hpeek] at h
    cases h
  | some b =>
    simp only [hpeek] at h
    have herror : parseDatum limit (parseForm limit n) b (skipWsAndComments r) = .error x := by
      cases hp : parseDatum limit (parseForm limit n) b (skipWsAndComments r) with
      | error x' =>
        rw [hp] at h
        cases h
        rfl
      | ok y =>
        rw [hp] at h
        cases h
    unfold parseDatum at herror
    -- only lists and quotes read other forms; the other errors are found at the form
    by_cases hopen : b = ch '('
    · rw [if_pos hopen] at herror
      subst hopen
      by_cases hdepth : (skipWsAndComments r).advance.depth < limit
      · rw [parseList_eq _ hdepth] at herror
        have hdepth' : (skipWsAndComments r).depth < limit := by rwa [depth_advance] at hdepth
        have hstart : ({ (skipWsAndComments r).advance with depth := (skipWsAndComments r).advance.depth + 1 } : Reader)
            = r.listStart := by rw [listStart, depth_advance]
        rw [hstart] at herror
        cases hp : parseListLoop (parseForm limit n) ((skipWsAndComments r.listStart).rest.length + 1)
          [] r.listStart with
        | error x' =>
          rw [hp] at herror
          cases herror
          exact parseListLoop_blamed hpeek hdepth' _ .start (Nat.lt_succ_self _) hp
        | ok y =>
          rw [hp] at herror
          cases herror
      · unfold parseList at herror
        rw [if_pos (by omega)] at herror
        cases herror
        rw [depth_advance] at hdepth
        exact .inr ⟨_, _, rfl, .depth hpeek (by omega)⟩
    rw [if_neg hopen] at herror
    by_cases hclose : b = ch ')'
    · rw [if_pos hclose] at herror
      cases herror
      exact .inr ⟨_, _, rfl, .close (hclose ▸ hpeek)⟩
    rw [if_neg hclose] at herror
    by_cases hquote : b = ch '\''
    · rw [if_pos hquote] at herror
      subst hquote
      unfold parseQuote at herror
      cases hp : parseForm limit n (skipWsAndComments r).advance with
      | error x' =>
        rw [hp] at herror
        cases herror
        exact .inl ⟨false, _, .quote hpeek, hp⟩
      | ok y =>
        obtain ⟨y, r₁⟩ := y
        rw [hp] at herror
        cases y with
        | none =>
          cases herror
          exact .inr ⟨_, _, rfl, .quote hpeek (parseForm_ok hp)⟩
        | some d => cases herror
    rw [if_neg hquote] at herror
    by_cases hstring : b = ch '"'
    · rw [if_pos hstring] at herror
      obtain ⟨e, record, rfl⟩ := parseString_decided.error herror
      exact .inr ⟨e, record, rfl, .string (hstring ▸ hpeek) herror⟩
    rw [if_neg hstring] at herror
    by_cases hhash : b = ch '#'
    · rw [if_pos hhash] at herror
      obtain ⟨e, record, rfl⟩ := parseHash_decided.error herror
      exact .inr ⟨e, record, rfl, .hash (hhash ▸ hpeek) herror⟩
    rw [if_neg hhash] at herror
    by_cases hdigit : isDigit b = true
    · rw [if_pos hdigit] at herror
      obtain ⟨e, record, rfl⟩ := parseNumber_decided.error herror
      exact .inr ⟨e, record, rfl, .number hpeek hdigit herror⟩
    rw [if_neg hdigit] at herror
    by_cases hsign : ((decide (b = ch '+') || decide (b = ch '-')) && (skipWsAndComments r).peek2.any isDigit) = true
    · rw [if_pos hsign] at herror
      obtain ⟨e, record, rfl⟩ := parseNumber_decided.error herror
      simp only [Bool.and_eq_true, Bool.or_eq_true, decide_eq_true_iff] at hsign
      exact .inr ⟨e, record, rfl, .signed hpeek hsign.1 hsign.2 herror⟩
    · rw [if_neg hsign] at herror
      cases herror

/-! ## What is refused inside is refused -/

theorem parseListLoop_elem {pf : Reader → Parse (Option Datum × Reader)} (m : Nat) (elems : List Datum)
    (h : ElemAt (skipWsAndComments r)) : parseListLoop pf (m + 1) elems r
      = (pf (skipWsAndComments r) >>= fun x => parseListLoop pf m (elems ++ [x.1.getD .nil]) x.2) := by
  obtain ⟨b, hpeek, hclose, hdot⟩ := h
  obtain ⟨bs, hr⟩ := rest_of_peek hpeek
  rw [← dot_iff hr] at hdot
  simp only [parseListLoop, hpeek, if_neg hclose, if_neg hdot]

theorem parseListLoop_dot {pf : Reader → Parse (Option Datum × Reader)} (m : Nat) {elems : List Datum}
    (helems : elems ≠ [])
    (h : Dot (skipWsAndComments r).rest) : parseListLoop pf (m + 1) elems r
      = (pf (skipWsAndComments r).advance >>= fun x =>
          if (skipWsAndComments x.2).peek ≠ some (ch ')') then
            refuse (skipWsAndComments x.2).line (skipWsAndComments x.2).column
              (ascii "expected `)` after dotted-pair tail form") .errReadSyntax
          else .ok (.list elems (x.1.getD .nil), (skipWsAndComments x.2).advance)) := by
  obtain ⟨b, bs, hr, -⟩ := id h
  rw [← dot_iff hr] at h
  have hclose : ch '.' ≠ ch ')' := by decide
  simp only [decide_true, Bool.true_and] at h
  simp only [parseListLoop, peek_of_rest hr, if_neg hclose, decide_true, Bool.true_and, h, if_true, if_neg helems]

theorem parseListLoop_dotFirst {pf : Reader → Parse (Option Datum × Reader)} (m : Nat)
    (h : Dot (skipWsAndComments r).rest) :
    parseListLoop pf (m + 1) [] r = refuse (skipWsAndComments r).advance.line (skipWsAndComments r).advance.column
      (ascii "dot at start of list") .errReadSyntax := by
  obtain ⟨b, bs, hr, -⟩ := id h
  rw [← dot_iff hr] at h
  have hclose : ch '.' ≠ ch ')' := by decide
  simp only [decide_true, Bool.true_and] at h
  simp only [parseListLoop, peek_of_rest hr, if_neg hclose, decide_true, Bool.true_and, h, if_true]

/-- The loop gets past the elements, unless the count runs out in one of them. -/
theorem Items.loop {started : Bool} {r₀ : Reader} (h : Items limit r₀ started r') (m : Nat)
    (hm : (skipWsAndComments r₀).rest.length < m) :
    parseListLoop (parseForm limit n) m [] r₀ = .error .fuel ∨
    ∃ m' elems, (skipWsAndComments r').rest.length < m' ∧ started = !elems.isEmpty ∧
      parseListLoop (parseForm limit n) m [] r₀ = parseListLoop (parseForm limit n) m' elems r' := by
  induction h with
  | start => exact .inr ⟨m, [], hm, rfl, rfl⟩
  | @next started a r' r'' _ helem htook ih =>
    rcases ih with hfuel | ⟨m', elems, hm', -, heq⟩
    · exact .inl hfuel
    · obtain ⟨m', rfl⟩ : ∃ i, m' = i + 1 := ⟨m' - 1, by omega⟩
      rw [heq, parseListLoop_elem m' elems helem]
      by_cases hfuel : parseForm limit n (skipWsAndComments r') = .error .fuel
      · exact .inl (by rw [hfuel]; rfl)
      · have hlt := htook.2.length_lt
        rw [skip_skip] at hlt
        have hle := (past_skip r'').length_le
        rw [parseForm_eq hfuel, parse_eq_some.2 htook]
        exact .inr ⟨m', elems ++ [a], by omega, by simp, rfl⟩

theorem parseForm_datum {b : UInt8} (hpeek : (skipWsAndComments r).peek = some b) : parseForm limit (n + 1) r
    = (parseDatum limit (parseForm limit n) b (skipWsAndComments r) >>= fun x => .ok (some x.1, x.2)) := by
  simp only [parseForm, hpeek]

theorem parseForm_list (hpeek : (skipWsAndComments r).peek = some (ch '('))
    (hdepth : (skipWsAndComments r).depth < limit) :
    parseForm limit (n + 1) r =
      (parseListLoop (parseForm limit n) ((skipWsAndComments r.listStart).rest.length + 1) [] r.listStart
      >>= fun x => .ok (some x.1, { x.2 with depth := x.2.depth - 1 })) := by
  have hdepth' : (skipWsAndComments r).advance.depth < limit := by rwa [depth_advance]
  have hstart : ({ (skipWsAndComments r).advance with depth := (skipWsAndComments r).advance.depth + 1 } : Reader)
      = r.listStart := by rw [listStart, depth_advance]
  rw [parseForm_datum hpeek]
  show (parseList limit (parseForm limit n) (skipWsAndComments r).advance >>= _) = _
  rw [parseList_eq _ hdepth', hstart]
  cases parseListLoop (parseForm limit n) ((skipWsAndComments r.listStart).rest.length + 1) [] r.listStart <;> rfl

/-- How a list ends that is read up to here: as the loop does, unless the count runs out. -/
theorem Items.reported {started : Bool} (hpeek : (skipWsAndComments r).peek = some (ch '('))
    (hdepth : (skipWsAndComments r).depth < limit) (hitems : Items limit r.listStart started r')
    (hx : ∀ m elems, started = !elems.isEmpty → parseListLoop (parseForm limit n) (m + 1) elems r' = .error x ∨
      parseListLoop (parseForm limit n) (m + 1) elems r' = .error .fuel) :
    parseForm limit (n + 1) r = .error x ∨ parseForm limit (n + 1) r = .error .fuel := by
  have hend : parseListLoop (parseForm limit n) ((skipWsAndComments r.listStart).rest.length + 1)
      [] r.listStart = .error x ∨
      parseListLoop (parseForm limit n) ((skipWsAndComments r.listStart).rest.length + 1) [] r.listStart
        = .error .fuel := by
    rcases hitems.loop _ (Nat.lt_succ_self _) with hfuel | ⟨m, elems, hm, hstarted, heq⟩
    · exact .inr hfuel
    · obtain ⟨m, rfl⟩ : ∃ i, m = i + 1 := ⟨m - 1, by omega⟩
      rw [heq]
      exact hx m elems hstarted
  rw [parseForm_list hpeek hdepth]
  rcases hend with h | h
  · exact .inl (by rw [h]; rfl)
  · exact .inr (by rw [h]; rfl)

theorem parseForm_inside {flag : Bool} {r₁ : Reader} (h : Inside limit r flag r₁)
    (hx : parseForm limit n r₁ = .error x) :
    parseForm limit (n + 1) r = .error x ∨ parseForm limit (n + 1) r = .error .fuel := by
  cases h with
  | quote hpeek =>
    apply Or.inl
    rw [parseForm_datum hpeek]
    show (parseQuote (parseForm limit n) (skipWsAndComments r) >>= _) = _
    rw [parseQuote, hx]
    rfl
  | elem hpeek hdepth hitems helem =>
    apply hitems.reported hpeek hdepth
    intro m elems _
    exact .inl (by rw [parseListLoop_elem m elems helem, hx]; rfl)
  | tail hpeek hdepth hitems hdot =>
    apply hitems.reported hpeek hdepth
    intro m elems hstarted
    have helems : elems ≠ [] := by simpa using hstarted
    exact .inl (by rw [parseListLoop_dot m helems hdot, hx]; rfl)

/-- An error at a place is an error of the whole. -/
theorem Place.error {lists quotes : Nat} {r₁ : Reader} (h : Place limit r lists quotes r₁)
    (hx : parse limit r₁ = .error x) :
    parse limit r = .error x := by
  have hstep : ∀ {flag r r₁}, Inside limit r flag r₁ → parse limit r₁ = .error x → parse limit r = .error x := by
    intro flag r r₁ hin hx
    have hn : Decided (parseForm limit (r.rest.length + r₁.rest.length + 1) r₁) := parseForm_decided _ _ (by omega)
    have hn' : Decided (parseForm limit (r.rest.length + r₁.rest.length + 2) r) := parseForm_decided _ _ (by omega)
    rw [← parseForm_eq hn] at hx
    rw [← parseForm_eq hn']
    rcases parseForm_inside hin hx with h | h
    · exact h
    · exact absurd h hn'
  induction h with
  | here => exact hx
  | list hin _ ih => exact hstep hin (ih hx)
  | quote hin _ ih => exact hstep hin (ih hx)

/-- A list beyond the limit is refused. -/
theorem parse_too_deep (hpeek : (skipWsAndComments r).peek = some (ch '(')) (hdepth : limit ≤ r.depth) :
    ∃ record, parse limit r = .error (.error .errReadDepth record) := by
  have hlist : parseList limit (parseForm limit r.rest.length) (skipWsAndComments r).advance
      = refuse (skipWsAndComments r).advance.line (skipWsAndComments r).advance.column
        (ascii "nesting depth exceeds limit of " ++ decimal limit) .errReadDepth :=
    if_pos (by rwa [depth_advance, (past_skip r).depth])
  have hparse : parse limit r = (parseList limit (parseForm limit r.rest.length) (skipWsAndComments r).advance >>=
      fun x => .ok (some x.1, x.2)) := by
    simp only [parse, parseForm, hpeek]
    rfl
  rw [hlist] at hparse
  exact ⟨_, hparse⟩

/-- A fault is reported. -/
theorem Fault.reported {e : Status} (h : Fault limit r e) : ∃ record, parse limit r = .error (.error e record) := by
  have hloop : ∀ {record started r'}, (skipWsAndComments r).peek = some (ch '(') → (skipWsAndComments r).depth < limit →
      Items limit r.listStart started r' →
      (∀ m elems, started = !elems.isEmpty → parseListLoop (parseForm limit r.rest.length) (m + 1) elems r'
        = .error (.error e record) ∨
        parseListLoop (parseForm limit r.rest.length) (m + 1) elems r' = .error .fuel) →
      ∃ record, parse limit r = .error (.error e record) := fun hpeek hdepth hitems hx =>
    ⟨_, (hitems.reported hpeek hdepth hx).resolve_right (parse_decided r)⟩
  have htoken : ∀ {b record}, (skipWsAndComments r).peek = some b →
      parseDatum limit (parseForm limit r.rest.length) b (skipWsAndComments r) = .error (.error e record) →
      ∃ record, parse limit r = .error (.error e record) := by
    intro b record hpeek hp
    refine ⟨record, ?_⟩
    show parseForm limit (r.rest.length + 1) r = _
    rw [parseForm_datum hpeek, hp]
    rfl
  cases h with
  | close hpeek => exact htoken hpeek rfl
  | depth hpeek hdepth => exact parse_too_deep hpeek (by rwa [(past_skip r).depth] at hdepth)
  | unclosed hpeek hdepth hitems hnone =>
    apply hloop hpeek hdepth hitems
    intro m elems _
    simp only [parseListLoop, hnone]
    exact .inl rfl
  | dotFirst hpeek hdepth hdot =>
    apply hloop hpeek hdepth .start
    intro m elems hstarted
    obtain rfl : elems = [] := by simpa using hstarted
    exact .inl (parseListLoop_dotFirst m hdot)
  | @tail r' r'' y hpeek hdepth hitems hdot htail hclose =>
    apply hloop hpeek hdepth hitems
    intro m elems hstarted
    rw [parseListLoop_dot m (by simpa using hstarted) hdot]
    -- the fuel left over for the tail is enough, or the whole run lacks fuel
    by_cases hfuel : parseForm limit r.rest.length (skipWsAndComments r').advance = .error .fuel
    · exact .inr (by rw [hfuel]; rfl)
    · rw [parseForm_eq hfuel, htail]
      simp only [bind, Except.bind, if_pos hclose]
      exact .inl rfl
  | quote hpeek hnone =>
    have hrefused : ∀ {n}, parseForm limit n (skipWsAndComments r).advance ≠ .error .fuel →
        parseQuote (parseForm limit n) (skipWsAndComments r) = refuse (skipWsAndComments r).line
          (skipWsAndComments r).column
          (ascii "lone `'` with no following datum") .errReadTruncated := by
      intro n hn
      rw [parseQuote, parseForm_eq hn, hnone]
      rfl
    obtain ⟨bs, hr⟩ := rest_of_peek hpeek
    have hle := (past_skip r).length_le
    have hlen : (skipWsAndComments r).advance.rest.length < r.rest.length := by
      rw [rest_advance hr]
      rw [hr, List.length_cons] at hle
      omega
    exact htoken hpeek (hrefused (parseForm_decided _ _ hlen))
  | string hpeek hp => exact htoken hpeek hp
  | hash hpeek hp => exact htoken hpeek hp
  | @number b _ record hpeek hdigit hp =>
    apply htoken hpeek
    rw [parseDatum_of_digit hdigit, hp]
  | @signed b _ record hpeek hsign hdigit hp =>
    apply htoken hpeek
    rw [parseDatum_of_signed hsign hdigit, hp]

/-- An error has a place where it is found. -/
theorem parse_error {e : Status} {record : MlError} (h : parse limit r = .error (.error e record)) :
    ∃ lists quotes r₁, Place limit r lists quotes r₁ ∧ Fault limit r₁ e := by
  have hforms : ∀ n r, parseForm limit n r = .error (.error e record) →
      ∃ lists quotes r₁, Place limit r lists quotes r₁ ∧ Fault limit r₁ e := by
    intro n
    induction n with
    | zero => exact fun r h => by cases h
    | succ n ih =>
      intro r h
      rcases parseForm_blamed h with ⟨flag, r₁, hin, hx⟩ | ⟨_, _, ⟨⟩, hfault⟩
      · obtain ⟨lists, quotes, r₂, hplace, hfault⟩ := ih r₁ hx
        cases flag with
        | true => exact ⟨lists + 1, quotes, r₂, .list hin hplace, hfault⟩
        | false => exact ⟨lists, quotes + 1, r₂, .quote hin hplace, hfault⟩
      · exact ⟨0, 0, r, .here, hfault⟩
  exact hforms _ r h

/-- The count runs out where as many forms are open. -/
theorem parseForm_fuel : parseForm limit n r = .error .fuel ↔
    ∃ lists quotes r₁, Place limit r lists quotes r₁ ∧ n ≤ lists + quotes := by
  constructor
  · intro h
    induction n generalizing r with
    | zero => exact ⟨0, 0, r, .here, Nat.le_refl 0⟩
    | succ n ih =>
      rcases parseForm_blamed h with ⟨flag, r₁, hin, hx⟩ | ⟨_, _, ⟨⟩, _⟩
      obtain ⟨lists, quotes, r₂, hplace, hle⟩ := ih hx
      cases flag with
      | true => exact ⟨lists + 1, quotes, r₂, .list hin hplace, by omega⟩
      | false => exact ⟨lists, quotes + 1, r₂, .quote hin hplace, by omega⟩
  · rintro ⟨lists, quotes, r₁, hplace, hle⟩
    have hstep : ∀ {flag r r₁ n}, Inside limit r flag r₁ → parseForm limit n r₁ = .error .fuel →
        parseForm limit (n + 1) r = .error .fuel := fun hin hx => (parseForm_inside hin hx).elim id id
    induction hplace generalizing n with
    | here =>
      obtain rfl : n = 0 := by omega
      rfl
    | list hin _ ih =>
      cases n with
      | zero => rfl
      | succ n => exact hstep hin (ih (by omega))
    | quote hin _ ih =>
      cases n with
      | zero => rfl
      | succ n => exact hstep hin (ih (by omega))

end Faults
end Microlisp
