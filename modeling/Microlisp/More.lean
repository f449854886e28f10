import Microlisp.Nesting
/-!
# More text after a text

What was read with some text left is read the same way with more text after it.
-/
namespace Microlisp

open Reader

/-- The reader with more text after its own. -/
def Reader.more (r : Reader) (q : Bytes) : Reader := { r with rest := r.rest ++ q }

section More
variable {r r' : Reader} {b : UInt8} {bs cs q text rest bytes : Bytes}

@[simp] theorem more_rest : (r.more q).rest = r.rest ++ q := rfl

@[simp] theorem more_depth : (r.more q).depth = r.depth := rfl

theorem more_advance (h : r.rest = b :: bs) : (r.more q).advance = r.advance.more q := by
  unfold advance more
  rw [h]
  dsimp only [List.cons_append]
  split <;> rfl

theorem more_eat (h : r.rest = bs ++ cs) : (r.more q).eat bs = (r.eat bs).more q := by
  induction bs generalizing r with
  | nil => rfl
  | cons b bs ih => rw [eat, eat, more_advance h, ih (rest_advance h)]

theorem Reader.Past.more (h : r.Past r') : (r.more q).Past (r'.more q) := by
  obtain ⟨bs, hrest, heq⟩ := h
  refine ⟨bs, ?_, ?_⟩
  · rw [more_rest, more_rest, hrest, List.append_assoc]
  · rw [more_eat hrest, ← heq]

theorem more_peek (h : r.rest ≠ []) : (r.more q).peek = r.peek := by
  unfold peek
  rw [more_rest]
  cases hr : r.rest with
  | nil => exact absurd hr h
  | cons b bs => rfl

theorem rest_ne_nil (h : r.peek = some b) : r.rest ≠ [] := by
  obtain ⟨bs, hr⟩ := rest_of_peek h
  rw [hr]
  exact nofun

theorem more_skip (h : (skipWsAndComments r).rest ≠ []) :
    skipWsAndComments (r.more q) = (skipWsAndComments r).more q := by
  rcases skip_cases r with ⟨lay, b, bs, heq, hlay, hstarts, hskip⟩ | ⟨-, hskip⟩
  · have heq' : (r.more q).rest = lay ++ (b :: bs ++ q) := by rw [more_rest, heq, List.append_assoc]
    rw [skip_layout heq' hlay hstarts, hskip, more_eat heq]
  · rw [hskip, rest_eat (List.append_nil _).symm] at h
    exact absurd rfl h

theorem more_skip_peek (h : (skipWsAndComments r).peek = some b) :
    skipWsAndComments (r.more q) = (skipWsAndComments r).more q ∧ (skipWsAndComments (r.more q)).peek = some b := by
  have hne := rest_ne_nil h
  rw [more_skip hne, more_peek hne]
  exact ⟨rfl, h⟩

/-! ## Texts -/

theorem StringText.more (h : StringText bytes text rest) : StringText bytes (text ++ q) (rest ++ q) := by
  induction h with
  | close => exact .close
  | plain hq hb _ ih => exact .plain hq hb ih
  | escape hesc _ ih =>
    rw [List.append_assoc]
    exact .escape hesc ih

/-- Nothing is added to the token that ends where `rest` starts. -/
def Apart (rest q : Bytes) : Prop := rest ≠ [] ∨ isTerminator q.head? = true

theorem Apart.terminator (h : Apart rest q) (ht : isTerminator rest.head? = true) :
    isTerminator (rest ++ q).head? = true := by
  cases rest with
  | nil => exact h.resolve_left fun hne => hne rfl
  | cons b rest => exact ht

theorem dot_append (h : Dot text) : Dot (text ++ q) := by
  obtain ⟨b, bs, rfl, hb⟩ := h
  exact ⟨b, bs ++ q, rfl, hb⟩

/-- With two bytes the first of them is a dot or is not. -/
theorem not_dot_append (h : ¬ Dot text) (hlen : 1 < text.length) : ¬ Dot (text ++ q) := by
  rintro ⟨b, bs, heq, hb⟩
  match text, hlen with
  | b₁ :: b₂ :: text, _ =>
    cases heq
    exact h ⟨b, text, rfl, hb⟩

theorem Text.more {part : Part} {k : Nat} {d : Datum} (h : Text part k d text rest)
    (hq : part = .datum → Apart rest q) :
    Text part k d (text ++ q) (rest ++ q) := by
  induction h with
  | bool ht => exact .bool ((hq rfl).terminator ht)
  | number hx hf ht =>
    rw [List.append_assoc]
    exact .number hx hf ((hq rfl).terminator ht)
  | symbol hn ht =>
    rw [List.append_assoc]
    exact .symbol hn ((hq rfl).terminator ht)
  | string hs => exact .string hs.more
  | quote hl _ ih =>
    rw [List.append_assoc]
    exact .quote hl (ih fun _ => hq rfl)
  | list _ ih => exact .list (ih nofun)
  | close hl =>
    rw [List.append_assoc]
    exact .close hl
  | elem hl hdot htext hlist ih ih' =>
    have hmid := hlist.length_lt
    have hlen := htext.length_lt
    rw [List.append_assoc]
    exact .elem hl (not_dot_append hdot (by omega)) (ih fun _ => .inl (List.ne_nil_of_length_pos (by omega)))
      (ih' nofun)
  | @dotted k d lay lay' lay'' text rest hl hl' hl'' hdot htext ih =>
    have htail := ih fun _ => .inl (by simp)
    rw [List.append_assoc] at htail
    have hdot' := dot_append (q := q) hdot
    rw [List.append_assoc] at hdot'
    simpa using Text.dotted hl hl' hl'' hdot' htail

/-! ## What is read -/

variable {limit : Nat} {d : Datum}

theorem Took.more (h : Took limit r d r') (hq : Apart r'.rest q) : Took limit (r.more q) d (r'.more q) := by
  obtain ⟨hpast, htext⟩ := h
  obtain ⟨b, bs, hrest, -⟩ := htext.opens
  refine ⟨hpast.more, ?_⟩
  rw [more_skip (by rw [hrest]; exact nofun)]
  exact htext.more fun _ => hq

theorem parse_more (h : parse limit r = .ok (some d, r')) (hq : Apart r'.rest q) :
    parse limit (r.more q) = .ok (some d, r'.more q) :=
  parse_eq_some.2 ((parse_eq_some.1 h).more hq)

theorem ElemAt.rest_ne_nil (h : ElemAt r) : r.rest ≠ [] := by
  obtain ⟨b, hpeek, -, -⟩ := h
  exact Microlisp.rest_ne_nil hpeek

/-- A lone dot is an element that more text may change. -/
theorem ElemAt.more (h : ElemAt r) (hdot : r.rest ≠ [ch '.']) : ElemAt (r.more q) := by
  obtain ⟨b, hpeek, hclose, hnot⟩ := h
  refine ⟨b, by rw [more_peek (Microlisp.rest_ne_nil hpeek), hpeek], hclose, ?_⟩
  obtain ⟨bs, hr⟩ := rest_of_peek hpeek
  rw [more_rest, hr]
  rw [hr] at hnot hdot
  cases bs with
  | nil =>
    rintro ⟨b', bs', heq, -⟩
    cases heq
    exact hdot rfl
  | cons b₂ bs => exact not_dot_append hnot (by simp)

theorem skip_rest_ne_nil (h : (skipWsAndComments r).rest ≠ []) : r.rest ≠ [] := by
  intro hr
  have hle := (past_skip r).length_le
  rw [hr] at hle
  exact h (List.eq_nil_of_length_eq_zero (Nat.le_zero.1 hle))

theorem Items.more {started : Bool} (h : Items limit r started r') (hne : r'.rest ≠ []) :
    Items limit (r.more q) started (r'.more q) := by
  induction h with
  | start => exact .start
  | @next started a r' r'' _ helem htook ih =>
    have hskip := helem.rest_ne_nil
    have hlen := htook.2.length_lt
    rw [skip_skip] at hlen
    have hdot : (skipWsAndComments r').rest ≠ [ch '.'] := by
      intro heq
      rw [heq] at hlen
      exact hne (List.eq_nil_of_length_eq_zero (by simpa using hlen))
    have hmore := more_skip (q := q) hskip
    apply (ih (skip_rest_ne_nil hskip)).next
    · rw [hmore]
      exact helem.more hdot
    · rw [hmore]
      exact htook.more (.inl hne)

theorem more_listStart (h : (skipWsAndComments r).peek = some b) : (r.more q).listStart = r.listStart.more q := by
  obtain ⟨bs, hr⟩ := rest_of_peek h
  unfold listStart
  rw [(more_skip_peek h).1, more_advance hr]
  rfl

theorem Inside.more {flag : Bool} {r₁ : Reader} (h : Inside limit r flag r₁)
    (hdot : (skipWsAndComments r₁).rest ≠ [ch '.']) :
    Inside limit (r.more q) flag (r₁.more q) := by
  cases h with
  | quote hpeek =>
    obtain ⟨bs, hr⟩ := rest_of_peek hpeek
    obtain ⟨hskip, hpeek'⟩ := more_skip_peek (q := q) hpeek
    rw [← more_advance hr, ← hskip]
    exact .quote hpeek'
  | @elem started r' hpeek hdepth hitems helem =>
    obtain ⟨hskip, hpeek'⟩ := more_skip_peek (q := q) hpeek
    have hmore := more_skip (q := q) helem.rest_ne_nil
    rw [skip_skip] at hdot
    rw [← hmore]
    apply Inside.elem hpeek' (by rwa [hskip])
    · rw [more_listStart hpeek]
      exact hitems.more (skip_rest_ne_nil helem.rest_ne_nil)
    · rw [hmore]
      exact helem.more hdot
  | @tail r' hpeek hdepth hitems hdot' =>
    obtain ⟨hskip, hpeek'⟩ := more_skip_peek (q := q) hpeek
    obtain ⟨b, bs, hr, -⟩ := id hdot'
    have hne : (skipWsAndComments r').rest ≠ [] := by
      rw [hr]
      exact nofun
    have hmore := more_skip (q := q) hne
    rw [← more_advance hr, ← hmore]
    apply Inside.tail hpeek' (by rwa [hskip])
    · rw [more_listStart hpeek]
      exact hitems.more (skip_rest_ne_nil hne)
    · rw [hmore]
      exact dot_append hdot'

/-- A place has a text of its own; the places around it start with a parenthesis or a quote mark. -/
theorem Place.start {lists quotes : Nat} {p : Bytes → Prop} (h : Place limit r lists quotes r')
    (hr' : p (skipWsAndComments r').rest)
    (hopen : ∀ b bs, b = ch '(' ∨ b = ch '\'' → p (b :: bs)) : p (skipWsAndComments r).rest := by
  have hpeek : ∀ {b}, (skipWsAndComments r).peek = some b → b = ch '(' ∨ b = ch '\'' →
      p (skipWsAndComments r).rest := by
    intro b hpeek hb
    obtain ⟨bs, hr⟩ := rest_of_peek hpeek
    rw [hr]
    exact hopen b bs hb
  cases h with
  | here => exact hr'
  | list hin _ =>
    cases hin with
    | elem hpar _ _ _ => exact hpeek hpar (.inl rfl)
    | tail hpar _ _ _ => exact hpeek hpar (.inl rfl)
  | quote hin _ =>
    cases hin with
    | quote hmark => exact hpeek hmark (.inr rfl)

/-- What is open stays open with more text, unless the text ends in a lone dot. -/
theorem Place.more {lists quotes : Nat} (h : Place limit r lists quotes r')
    (hdot : (skipWsAndComments r').rest ≠ [ch '.']) :
    Place limit (r.more q) lists quotes (r'.more q) := by
  have hopen : ∀ (b : UInt8) (bs : Bytes), b = ch '(' ∨ b = ch '\'' → b :: bs ≠ [ch '.'] := by
    rintro b bs (rfl | rfl) heq
    · cases heq
    · cases heq
  induction h with
  | here => exact .here
  | list hin hplace ih => exact .list (hin.more (hplace.start (p := (· ≠ [ch '.'])) hdot hopen)) (ih hdot)
  | quote hin hplace ih => exact .quote (hin.more (hplace.start (p := (· ≠ [ch '.'])) hdot hopen)) (ih hdot)

end More
end Microlisp
