import Mathlib.Data.List.TakeWhile
import Microlisp.Parser
/-!
# Positions in a text

Every reader that a read passes through is the first one past some of its bytes.
-/
namespace Microlisp

namespace Reader

/-- The reader past these bytes, if they are the next ones. -/
def eat (r : Reader) : Bytes → Reader
  | [] => r
  | _ :: bs => r.advance.eat bs

variable {r : Reader} {b : UInt8} {bs cs : Bytes}

@[simp] theorem eat_nil : r.eat [] = r := rfl

theorem eat_append : r.eat (bs ++ cs) = (r.eat bs).eat cs := by
  induction bs generalizing r with
  | nil => rfl
  | cons b bs ih => exact ih

theorem rest_advance (h : r.rest = b :: bs) : r.advance.rest = bs := by
  unfold advance
  rw [h]
  dsimp only
  split <;> rfl

theorem depth_advance : r.advance.depth = r.depth := by
  unfold advance
  split
  · rfl
  · split <;> rfl

theorem pos_advance (h : r.rest = b :: bs) : r.advance.pos = r.pos + 1 := by
  unfold advance
  rw [h]
  dsimp only
  split <;> rfl

theorem rest_eat (h : r.rest = bs ++ cs) : (r.eat bs).rest = cs := by
  induction bs generalizing r with
  | nil => exact h
  | cons b bs ih => exact ih (rest_advance h)

theorem depth_eat : (r.eat bs).depth = r.depth := by
  induction bs generalizing r with
  | nil => rfl
  | cons b bs ih => exact ih.trans depth_advance

theorem pos_eat (h : r.rest = bs ++ cs) : (r.eat bs).pos = r.pos + bs.length := by
  induction bs generalizing r with
  | nil => rfl
  | cons b bs ih =>
    rw [eat, ih (rest_advance h), pos_advance h, List.length_cons]
    omega

theorem peek_of_rest (h : r.rest = b :: bs) : r.peek = some b := by
  rw [peek, h]
  rfl

theorem rest_of_peek (h : r.peek = some b) : ∃ bs, r.rest = b :: bs := by
  cases hr : r.rest with
  | nil =>
    rw [peek, hr] at h
    cases h
  | cons b' bs =>
    rw [peek, hr] at h
    cases h
    exact ⟨bs, rfl⟩

theorem peek_eq_none : r.peek = none ↔ r.rest = [] := by
  rw [peek, List.head?_eq_none_iff]

/-- The depth is a mark that no other field depends on. -/
theorem advance_setDepth {n : Nat} : ({ r with depth := n } : Reader).advance = { r.advance with depth := n } := by
  unfold advance
  dsimp only
  split
  · rfl
  · split <;> rfl

theorem eat_setDepth {n : Nat} : ({ r with depth := n } : Reader).eat bs = { r.eat bs with depth := n } := by
  induction bs generalizing r with
  | nil => rfl
  | cons b bs ih => rw [eat, advance_setDepth, ih, eat]

theorem advance_eq_self (h : r.rest = []) : r.advance = r := by
  unfold advance
  rw [h]

/-- `r'` is the reader past some bytes of `r`. -/
def Past (r r' : Reader) : Prop := ∃ bs, r.rest = bs ++ r'.rest ∧ r' = r.eat bs

variable {r' r'' : Reader}

theorem past_eat (h : r.rest = bs ++ cs) : r.Past (r.eat bs) := ⟨bs, by rw [rest_eat h, h], rfl⟩

theorem Past.refl (r : Reader) : r.Past r := ⟨[], rfl, rfl⟩

theorem Past.trans (h : r.Past r') (h' : r'.Past r'') : r.Past r'' := by
  obtain ⟨bs, hrest, rfl⟩ := h
  obtain ⟨cs, hrest', rfl⟩ := h'
  exact ⟨bs ++ cs, by rw [hrest, hrest', List.append_assoc], eat_append.symm⟩

theorem past_advance (r : Reader) : r.Past r.advance := by
  cases hr : r.rest with
  | nil =>
    rw [advance_eq_self hr]
    exact .refl r
  | cons b bs => exact past_eat (show r.rest = [b] ++ bs from hr)

theorem Past.depth (h : r.Past r') : r'.depth = r.depth := by
  obtain ⟨bs, -, rfl⟩ := h
  exact depth_eat

theorem Past.length_le (h : r.Past r') : r'.rest.length ≤ r.rest.length := by
  obtain ⟨bs, hrest, -⟩ := h
  rw [hrest, List.length_append]
  omega

/-- The end position is the start position and the bytes between them. -/
theorem Past.pos (h : r.Past r') : r'.pos + r'.rest.length = r.pos + r.rest.length := by
  obtain ⟨bs, hrest, heq⟩ := h
  rw [hrest, List.length_append, heq, pos_eat hrest, ← heq]
  omega

/-- The reader past the bytes is determined by what is left. -/
theorem Past.unique (h : r.Past r') (h' : r.Past r'') (hrest : r'.rest = r''.rest) : r' = r'' := by
  obtain ⟨bs, hbs, heq⟩ := h
  obtain ⟨cs, hcs, heq'⟩ := h'
  rw [hbs, hrest] at hcs
  rw [heq, heq', List.append_cancel_right hcs]

end Reader

section Scan
variable {r : Reader} {p : UInt8 → Bool}

theorem advanceWhile_eat : advanceWhile p r.rest r = r.eat (r.rest.takeWhile p) := by
  have hrun : ∀ bs (r : Reader), advanceWhile p bs r = r.eat (bs.takeWhile p) := by
    intro bs
    induction bs with
    | nil => exact fun r => rfl
    | cons b bs ih =>
      intro r
      simp only [advanceWhile, List.takeWhile_cons]
      split
      · exact ih r.advance
      · rfl
  exact hrun _ r

theorem rest_advanceWhile : (advanceWhile p r.rest r).rest = r.rest.dropWhile p := by
  rw [advanceWhile_eat]
  exact Reader.rest_eat (List.takeWhile_append_dropWhile).symm

theorem advanceWhile_of_takeWhile {bs cs : Bytes} (h : r.rest = bs ++ cs) (hbs : ∀ b ∈ bs, p b = true)
    (hcs : ∀ b, cs.head? = some b → p b = false) : advanceWhile p r.rest r = r.eat bs := by
  rw [advanceWhile_eat, h, List.takeWhile_append_of_pos hbs]
  cases cs with
  | nil => simp
  | cons b cs => simp [hcs b rfl]

/-! ## Layout -/

/-- Whitespace and line comments, each comment with the newline that ends it. -/
inductive Layout : Bytes → Prop
  | nil : Layout []
  | space {b : UInt8} {bs : Bytes} : isWhitespace b = true → Layout bs → Layout (b :: bs)
  | comment {text bs : Bytes} : ch '\n' ∉ text → Layout bs → Layout (ch ';' :: text ++ ch '\n' :: bs)

/-- A comment that the end of the text ends. -/
def LastComment (bs : Bytes) : Prop := ∃ text, ch '\n' ∉ text ∧ bs = ch ';' :: text

/-- Nothing, or something that is no layout. -/
def Starts (bs : Bytes) : Prop := ∀ b, bs.head? = some b → isWhitespace b = false ∧ b ≠ ch ';'

/-- Layout up to the end of a text. -/
def Trailing (bs : Bytes) : Prop := ∃ lay rest, bs = lay ++ rest ∧ Layout lay ∧ (rest = [] ∨ LastComment rest)

/-- Every text starts with all its layout. -/
theorem exists_layout (bs : Bytes) : ∃ lay rest, bs = lay ++ rest ∧ Layout lay ∧ (Starts rest ∨ LastComment rest) := by
  induction hn : bs.length using Nat.strongRecOn generalizing bs with
  | ind n ih =>
    subst hn
    cases bs with
    | nil => exact ⟨[], [], rfl, .nil, .inl nofun⟩
    | cons b bs =>
      by_cases hws : isWhitespace b = true
      · obtain ⟨lay, rest, rfl, hlay, hrest⟩ := ih bs.length (by simp) bs rfl
        exact ⟨b :: lay, rest, rfl, .space hws hlay, hrest⟩
      · by_cases hc : b = ch ';'
        · subst hc
          by_cases hnl : ch '\n' ∈ bs
          · obtain ⟨text, more, hbs, htext⟩ := List.eq_append_cons_of_mem hnl
            obtain ⟨lay, rest, hmore, hlay, hrest⟩ := ih more.length (by rw [hbs]; simp; omega) more rfl
            exact ⟨ch ';' :: text ++ ch '\n' :: lay, rest, by rw [hbs, hmore]; simp, .comment htext hlay, hrest⟩
          · exact ⟨[], _, rfl, .nil, .inr ⟨bs, hnl, rfl⟩⟩
        · refine ⟨[], b :: bs, rfl, .nil, .inl ?_⟩
          rintro _ ⟨⟩
          exact ⟨by simpa using hws, hc⟩

theorem skipLoop_starts (n : Nat) (h : Starts r.rest) : skipLoop n r = r := by
  cases n with
  | zero => rfl
  | succ n =>
    unfold skipLoop
    cases hb : r.peek with
    | none => rfl
    | some b =>
      obtain ⟨hws, hc⟩ := h b hb
      simp [hws, hc]

theorem skipLoop_space {b : UInt8} {bs : Bytes} (n : Nat) (h : r.rest = b :: bs) (hb : isWhitespace b = true) :
    skipLoop (n + 1) r = skipLoop n r.advance := by
  simp [skipLoop, Reader.peek_of_rest h, hb]

theorem skipLoop_comment {text bs : Bytes} (n : Nat) (h : r.rest = ch ';' :: text ++ bs) (ht : ch '\n' ∉ text)
    (hbs : ∀ b, bs.head? = some b → b = ch '\n') : skipLoop (n + 1) r = skipLoop n (r.eat (ch ';' :: text)) := by
  have heat : advanceWhile (fun b => b ≠ ch '\n') r.rest r = r.eat (ch ';' :: text) := by
    apply advanceWhile_of_takeWhile h
    · intro b hb
      rcases List.mem_cons.1 hb with rfl | hb
      · decide
      · simp only [ne_eq, decide_not, Bool.not_eq_true', decide_eq_false_iff_not]
        rintro rfl
        exact ht hb
    · intro b hb
      simp [hbs b hb]
  have hpeek : r.peek = some (ch ';') := Reader.peek_of_rest h
  rw [skipLoop, hpeek]
  dsimp only
  rw [if_neg (by decide), if_pos rfl, heat]

theorem skipLoop_layout {lay rest : Bytes} (hlay : Layout lay) (n : Nat) (h : r.rest = lay ++ rest)
    (hn : r.rest.length < n) : ∃ m, rest.length < m ∧ skipLoop n r = skipLoop m (r.eat lay) := by
  induction hlay generalizing r n with
  | nil => exact ⟨n, by simpa [h] using hn, rfl⟩
  | @space b bs hb _ ih =>
    obtain ⟨n, rfl⟩ : ∃ k, n = k + 1 := ⟨n - 1, by omega⟩
    rw [skipLoop_space n h hb]
    have hrest := Reader.rest_advance h
    exact ih n hrest (by rw [h] at hn; rw [hrest]; simpa using hn)
  | @comment text bs ht _ ih =>
    obtain ⟨n, rfl⟩ : ∃ k, n = k + 2 := ⟨n - 2, by rw [h] at hn; simp at hn; omega⟩
    have hsplit : r.rest = ch ';' :: text ++ ch '\n' :: (bs ++ rest) := by rw [h]; simp
    have hnext : (r.eat (ch ';' :: text)).rest = ch '\n' :: (bs ++ rest) := Reader.rest_eat hsplit
    rw [skipLoop_comment (n + 1) hsplit ht (by rintro _ ⟨⟩; rfl), skipLoop_space n hnext (by decide)]
    have hrest := Reader.rest_advance hnext
    obtain ⟨m, hm, heq⟩ := ih n hrest (by rw [hsplit] at hn; rw [hrest]; simp at hn ⊢; omega)
    refine ⟨m, hm, ?_⟩
    rw [heq, Reader.eat_append]
    rfl

/-- Layout before a token is skipped. -/
theorem skip_layout {lay rest : Bytes} (h : r.rest = lay ++ rest) (hlay : Layout lay) (hrest : Starts rest) :
    skipWsAndComments r = r.eat lay := by
  obtain ⟨m, -, heq⟩ := skipLoop_layout hlay _ h (Nat.lt_succ_self _)
  rw [skipWsAndComments, heq, skipLoop_starts m (by rwa [Reader.rest_eat h])]

/-- Layout up to the end of the text is skipped. -/
theorem skip_trailing (h : Trailing r.rest) : skipWsAndComments r = r.eat r.rest := by
  obtain ⟨lay, rest, heq, hlay, hrest⟩ := h
  have hend : ∀ {r : Reader}, r.rest = [] → Starts r.rest := by
    intro r hr
    rw [hr]
    exact nofun
  rcases hrest with rfl | ⟨text, ht, rfl⟩
  · rw [skip_layout heq hlay nofun, heq, List.append_nil]
  · obtain ⟨m, hm, hskip⟩ := skipLoop_layout hlay _ heq (Nat.lt_succ_self _)
    obtain ⟨m, rfl⟩ : ∃ k, m = k + 1 := ⟨m - 1, by simp at hm; omega⟩
    have hlast : (r.eat lay).rest = ch ';' :: text ++ [] := by rw [Reader.rest_eat heq]; simp
    have hnone := Reader.rest_eat hlast
    rw [skipWsAndComments, hskip, skipLoop_comment m hlast ht nofun, skipLoop_starts m (hend hnone),
      heq, Reader.eat_append]

/-- What skipping does to any text. -/
theorem skip_cases (r : Reader) :
    (∃ lay b bs, r.rest = lay ++ b :: bs ∧ Layout lay ∧ Starts (b :: bs) ∧ skipWsAndComments r = r.eat lay) ∨
    (Trailing r.rest ∧ skipWsAndComments r = r.eat r.rest) := by
  obtain ⟨lay, rest, heq, hlay, hrest⟩ := exists_layout r.rest
  rcases hrest with hrest | hrest
  · cases rest with
    | nil =>
      have ht : Trailing r.rest := ⟨lay, [], heq, hlay, .inl rfl⟩
      exact .inr ⟨ht, skip_trailing ht⟩
    | cons b bs => exact .inl ⟨lay, b, bs, heq, hlay, hrest, skip_layout heq hlay hrest⟩
  · have ht : Trailing r.rest := ⟨lay, rest, heq, hlay, .inr hrest⟩
    exact .inr ⟨ht, skip_trailing ht⟩

/-- The reader skips to the end over layout alone. -/
theorem trailing_of_skip (h : (skipWsAndComments r).peek = none) : Trailing r.rest := by
  rcases skip_cases r with ⟨lay, b, bs, heq, -, -, hskip⟩ | ⟨htrailing, -⟩
  · rw [hskip, Reader.peek_of_rest (Reader.rest_eat heq)] at h
    cases h
  · exact htrailing

theorem starts_skip (r : Reader) : Starts (skipWsAndComments r).rest := by
  rcases skip_cases r with ⟨lay, b, bs, heq, -, hstart, hskip⟩ | ⟨-, hskip⟩
  · rw [hskip, Reader.rest_eat heq]
    exact hstart
  · rw [hskip, Reader.rest_eat (List.append_nil _).symm]
    exact nofun

theorem past_skip (r : Reader) : r.Past (skipWsAndComments r) := by
  rcases skip_cases r with ⟨lay, b, bs, heq, -, -, hskip⟩ | ⟨-, hskip⟩
  · rw [hskip]
    exact Reader.past_eat heq
  · rw [hskip]
    exact Reader.past_eat (List.append_nil _).symm

theorem skip_of_starts (h : Starts r.rest) : skipWsAndComments r = r := skipLoop_starts _ h

@[simp] theorem skip_skip (r : Reader) : skipWsAndComments (skipWsAndComments r) = skipWsAndComments r :=
  skip_of_starts (starts_skip r)

end Scan
end Microlisp
