import Microlisp.Accepts
import Microlisp.PrintDepth
/-!
# What the printer writes

The text of a datum, said without a printer, is what the printer gives a sink in write
style. It is a text of the grammar for that datum, if no pair of the datum has the symbol
`.` as its `car`, and else it is not.
-/
namespace Microlisp

open Prog Reader

/-! ## Written data -/

/-- One byte of a string. -/
def writeByte (b : UInt8) : Bytes := if needsEscape b then escapeOf b else [b]

/-- What is no pair. -/
def Datum.writeAtom : Datum → Bytes
  | .fix x => decimalInt x
  | .bool b => [ch '#', ch (if b then 't' else 'f')]
  | .sym name => name
  | .str bytes => ch '"' :: bytes.flatMap writeByte ++ [ch '"']
  | _ => [ch '(', ch ')']

mutual

def Datum.write : Datum → Bytes
  | .pair a d => ch '(' :: (a.write ++ d.writeRest ++ [ch ')'])
  | d => d.writeAtom

/-- The rest of a list, after one of its elements. -/
def Datum.writeRest : Datum → Bytes
  | .nil => []
  | .pair a d => ch ' ' :: (a.write ++ d.writeRest)
  | d => ch ' ' :: ch '.' :: ch ' ' :: d.writeAtom

end

mutual

/-- How deep lists go. What is no list counts for `n`. -/
def Datum.nest (n : Nat) : Datum → Nat
  | .nil => 1
  | .pair a d => 1 + max (a.nest n) (d.nestRest n)
  | _ => n

/-- The deepest of the elements of a list, and of its tail. -/
def Datum.nestRest (n : Nat) : Datum → Nat
  | .nil => 0
  | .pair a d => max (a.nest n) (d.nestRest n)
  | _ => n

end

/-- The names of the symbols. -/
def Datum.names : Datum → List Bytes
  | .sym name => [name]
  | .pair a d => a.names ++ d.names
  | _ => []

/-- Fixnums are in range, and symbols can be read. -/
def Datum.Lexical : Datum → Prop
  | .fix x => fitsFixnum x = true
  | .sym name => symbolText name
  | .pair a d => a.Lexical ∧ d.Lexical
  | _ => True

/-- No pair has the symbol `.` as its `car`. -/
def Datum.Dotless : Datum → Prop
  | .pair a d => a ≠ .sym [ch '.'] ∧ a.Dotless ∧ d.Dotless
  | _ => True

/-! ## Numbers -/

section Numbers
variable {n : Nat}

theorem decimal_lt (hn : n < 10) : decimal n = [ch n.digitChar] := by
  rw [decimal, Nat.toDigits_of_lt_base hn]
  rfl

theorem decimal_step (hn : 10 ≤ n) : decimal n = decimal (n / 10) ++ [ch (n % 10).digitChar] := by
  rw [decimal, Nat.toDigits_of_base_le (by decide) hn, List.map_append]
  rfl

theorem addDigit_digitChar {x : Int} (hn : n < 10) : addDigit x (ch n.digitChar) = x * 10 + n := by
  have hall : ∀ n : Fin 10, (ch (Nat.digitChar n) - ch '0').toNat = n := by decide
  rw [addDigit, hall ⟨n, hn⟩]

theorem digitsValue_decimal (n : Nat) : digitsValue (decimal n) = n := by
  induction n using Nat.strong_induction_on with
  | _ n ih =>
    by_cases hn : n < 10
    · rw [decimal_lt hn, digitsValue, List.foldl_cons, List.foldl_nil, addDigit_digitChar hn]
      simp
    · have hvalue : digitsValue (decimal n) = addDigit (digitsValue (decimal (n / 10))) (ch (n % 10).digitChar) := by
        rw [decimal_step (by omega), digitsValue, List.foldl_append]
        rfl
      rw [hvalue, ih (n / 10) (by omega), addDigit_digitChar (Nat.mod_lt n (by decide))]
      omega

theorem isDigit_decimal {b : UInt8} (hb : b ∈ decimal n) : isDigit b = true := by
  obtain ⟨c, hc, rfl⟩ := List.mem_map.1 hb
  have hdigit : c.isDigit = true := Nat.isDigit_of_mem_toDigits (by decide) (by decide) hc
  have hall : ∀ n : Fin 10, isDigit (UInt8.ofNat (48 + n)) = true := by decide
  simp only [Char.isDigit, Bool.and_eq_true, decide_eq_true_eq, ge_iff_le, UInt32.le_iff_toNat_le] at hdigit
  obtain ⟨hlo, hhi⟩ := hdigit
  have hlo' : 48 ≤ c.toNat := hlo
  have hhi' : c.toNat ≤ 57 := hhi
  obtain ⟨k, hk⟩ := Nat.exists_eq_add_of_le hlo'
  rw [ch, hk]
  exact hall ⟨k, by omega⟩

theorem numberText_decimalInt (x : Int) : numberText (decimalInt x) x := by
  have hne : ∀ n, decimal n ≠ [] := fun n => by simp [decimal, Nat.toDigits_ne_nil]
  unfold decimalInt
  by_cases hx : x < 0
  · rw [if_pos hx]
    refine ⟨[ch '-'], -1, decimal x.natAbs, by simp [signs], hne _, fun _ => isDigit_decimal, rfl, ?_⟩
    rw [digitsValue_decimal]
    omega
  · rw [if_neg hx]
    refine ⟨[], 1, decimal x.natAbs, by simp [signs], hne _, fun _ => isDigit_decimal, rfl, ?_⟩
    rw [digitsValue_decimal]
    omega

end Numbers

/-! ## Strings -/

/-- An escape stands for its byte. -/
theorem escape_escapeOf (b : UInt8) : ∃ esc, escapeOf b = ch '\\' :: esc ∧ Escape esc b := by
  have hhex : ∀ b : Fin 256, hexDigit (hexUpper (UInt8.ofNat b >>> 4)) = some (UInt8.ofNat b >>> 4) ∧
      hexDigit (hexUpper (UInt8.ofNat b &&& 0xf)) = some (UInt8.ofNat b &&& 0xf) ∧
      (16 : UInt8) * (UInt8.ofNat b >>> 4) + (UInt8.ofNat b &&& 0xf) = UInt8.ofNat b := by decide +kernel
  have hb := hhex ⟨b.toNat, b.toNat_lt⟩
  simp only [UInt8.ofNat_toNat] at hb
  obtain ⟨hhi, hlo, hvalue⟩ := hb
  have hescape := Escape.hex hhi hlo
  rw [hvalue] at hescape
  unfold escapeOf
  iterate 6
    split
    · rename_i hb
      subst hb
      exact ⟨_, rfl, .named (by decide)⟩
  exact ⟨_, rfl, hescape⟩

theorem stringText_write (bytes rest : Bytes) : StringText bytes (bytes.flatMap writeByte ++ ch '"' :: rest) rest := by
  induction bytes with
  | nil => exact .close
  | cons b bytes ih =>
    rw [List.flatMap_cons, List.append_assoc, writeByte]
    by_cases hb : needsEscape b = true
    · rw [if_pos hb]
      obtain ⟨esc, hesc, hE⟩ := escape_escapeOf b
      rw [hesc]
      exact .escape hE ih
    · rw [if_neg hb]
      simp only [needsEscape, Bool.or_eq_true, decide_eq_true_eq, not_or] at hb
      exact .plain hb.1.1.1 hb.1.1.2 ih

/-! ## Texts -/

section Texts
variable {d e : Datum} {k : Nat} {rest : Bytes}

theorem layout_space : Layout [ch ' '] := .space (by decide) .nil

/-- What follows an element ends it. -/
theorem terminator_writeRest : isTerminator (d.writeRest ++ ch ')' :: rest).head? = true := by
  cases d <;> rfl

/-- Only the symbol `.` looks like a dot. -/
theorem dot_write (hlex : d.Lexical) (h : Dot (d.write ++ rest)) : d = .sym [ch '.'] := by
  obtain ⟨b, bs, heq, hb⟩ := h
  cases d with
  | fix x =>
    obtain ⟨sign, n, digits, hsign, hne, hdigits, htext, -⟩ := numberText_decimalInt x
    obtain ⟨e, digits, rfl⟩ := List.exists_cons_of_ne_nil hne
    have he : isDigit e = true := hdigits e List.mem_cons_self
    simp only [signs, List.mem_cons, Prod.mk.injEq, List.not_mem_nil, or_false] at hsign
    change decimalInt x ++ rest = _ at heq
    rw [htext] at heq
    rcases hsign with ⟨rfl, -⟩ | ⟨rfl, -⟩ | ⟨rfl, -⟩
    · cases (List.cons.inj heq).1
      cases he
    · cases heq
    · cases heq
  | sym name =>
    obtain ⟨hne, hterm, -⟩ : symbolText name := hlex
    obtain ⟨x, more, rfl⟩ := List.exists_cons_of_ne_nil hne
    obtain ⟨rfl, hmore⟩ := List.cons.inj heq
    cases more with
    | nil => rfl
    | cons y more =>
      obtain ⟨rfl, -⟩ := List.cons.inj hmore
      rw [hterm y (by simp)] at hb
      cases hb
  | nil => cases heq
  | bool b => cases heq
  | str bytes => cases heq
  | pair a d => cases heq

/-- An atom is a token, or `()`. -/
theorem text_writeAtom (hlex : d.Lexical) (hatom : ∀ a e, d ≠ .pair a e) (hk : d.nest 0 ≤ k)
    (hrest : isTerminator rest.head? = true) :
    Text .datum k d (d.writeAtom ++ rest) rest := by
  cases d with
  | fix x => exact .number (numberText_decimalInt x) hlex hrest
  | nil =>
    obtain ⟨k, rfl⟩ : ∃ n, k = n + 1 := ⟨k - 1, by simp only [Datum.nest] at hk; omega⟩
    have hclose : Text (.list false) k .nil ([] ++ ch ')' :: rest) rest := .close .nil
    exact .list hclose
  | bool b => exact .bool hrest
  | sym name => exact .symbol hlex hrest
  | str bytes =>
    have htext := Text.string (k := k) (stringText_write bytes rest)
    simpa [Datum.writeAtom] using htext
  | pair a d => exact absurd rfl (hatom a d)

theorem text_write (hlex : d.Lexical) (hdot : d.Dotless) :
    (∀ k rest, d.nest 0 ≤ k → isTerminator rest.head? = true → Text .datum k d (d.write ++ rest) rest) ∧
    ∀ k rest, d.nestRest 0 ≤ k → Text (.list true) k d (d.writeRest ++ ch ')' :: rest) rest := by
  have hdotted : ∀ d : Datum, d.Lexical → (∀ a e, d ≠ .pair a e) → d ≠ .nil → ∀ k rest, d.nestRest 0 ≤ k →
      Text (.list true) k d (d.writeRest ++ ch ')' :: rest) rest := by
    intro d hlex hatom hnil k rest hk
    have hnest : d.nest 0 ≤ k := by
      cases d <;> simp_all [Datum.nest, Datum.nestRest]
    have htext : Text .datum k d (d.writeAtom ++ ch ')' :: rest) ([] ++ ch ')' :: rest) :=
      text_writeAtom hlex hatom hnest rfl
    have hwrite : d.writeRest = [ch ' '] ++ ch '.' :: [ch ' '] ++ d.writeAtom := by
      cases d <;> simp_all [Datum.writeRest]
    have hsplit : d.writeRest ++ ch ')' :: rest = [ch ' '] ++ ch '.' :: [ch ' '] ++
        (d.writeAtom ++ ch ')' :: rest) := by
      rw [hwrite, List.append_assoc]
    rw [hsplit]
    exact .dotted layout_space layout_space .nil ⟨ch ' ', _, rfl, by decide⟩ htext
  induction d with
  | pair a d iha ihd =>
    obtain ⟨hane, hadot, hddot⟩ := hdot
    obtain ⟨htexta, -⟩ := iha hlex.1 hadot
    obtain ⟨-, htextd⟩ := ihd hlex.2 hddot
    -- an element and what follows it, in a list of any number of elements
    have helem : ∀ k rest lay started, Layout lay → max (a.nest 0) (d.nestRest 0) ≤ k →
        Text (.list started) k (.pair a d) (lay ++ (a.write ++ (d.writeRest ++ ch ')' :: rest))) rest := by
      intro k rest lay started hlay hk
      exact .elem hlay (fun hdot => hane (dot_write hlex.1 hdot)) (htexta k _ (by omega) terminator_writeRest)
        (htextd k rest (by omega))
    constructor
    · intro k rest hk _
      simp only [Datum.nest] at hk
      obtain ⟨k, rfl⟩ : ∃ n, k = n + 1 := ⟨k - 1, by omega⟩
      have hlist := Text.list (helem k rest [] false .nil (by omega))
      simpa [Datum.write] using hlist
    · intro k rest hk
      have hlist := helem k rest _ true layout_space hk
      simpa [Datum.writeRest] using hlist
  | nil =>
    have hclose : ∀ k rest, Text (.list true) k .nil ([] ++ ch ')' :: rest) rest := fun _ _ => .close .nil
    exact ⟨fun k rest hk hrest => text_writeAtom hlex (by simp) hk hrest, fun k rest _ => hclose k rest⟩
  | fix x => exact ⟨fun k rest hk hrest => text_writeAtom hlex (by simp) hk hrest, hdotted _ hlex (by simp) (by simp)⟩
  | bool b => exact ⟨fun k rest hk hrest => text_writeAtom hlex (by simp) hk hrest, hdotted _ hlex (by simp) (by simp)⟩
  | sym name =>
    exact ⟨fun k rest hk hrest => text_writeAtom hlex (by simp) hk hrest, hdotted _ hlex (by simp) (by simp)⟩
  | str bytes =>
    exact ⟨fun k rest hk hrest => text_writeAtom hlex (by simp) hk hrest, hdotted _ hlex (by simp) (by simp)⟩

/-! ## Texts that do not read back -/

/-- A text says what it denotes, and where that ends. -/
theorem Text.unique {text rest' : Bytes} {k' : Nat} (h : Text .datum k d text rest) (h' : Text .datum k' e text rest') :
    d = e ∧ rest = rest' := by
  have hrest : (skipWsAndComments (.start text)).rest = text := by
    rw [skip_of_starts h.starts]
    rfl
  have hparse : ∀ {n e cs}, Text .datum n e text cs → n ≤ max k k' →
      ∃ r', parse (max k k') (.start text) = .ok (some e, r') ∧ r'.rest = cs := by
    intro n e cs htext hn
    have hn' : n ≤ max k k' - (Reader.start text).depth := hn
    obtain ⟨r', hp, -, hr'⟩ := parse_of_text (hrest.symm ▸ htext) hn'
    exact ⟨r', hp, hr'⟩
  obtain ⟨r, hp, hr⟩ := hparse h (Nat.le_max_left _ _)
  obtain ⟨r', hp', hr'⟩ := hparse h' (Nat.le_max_right _ _)
  rw [hp] at hp'
  cases hp'
  exact ⟨rfl, hr.symm.trans hr'⟩

theorem layout_unique {lay lay' text text' : Bytes} (hlay : Layout lay) (hlay' : Layout lay') (hs : Starts text)
    (hs' : Starts text')
    (h : lay ++ text = lay' ++ text') : text = text' := by
  have hr : (Reader.start (lay ++ text)).rest = lay ++ text := rfl
  have hskip := skip_layout hr hlay hs
  rw [skip_layout (hr.trans h) hlay' hs'] at hskip
  rw [← rest_eat hr, ← rest_eat (hr.trans h), hskip]

/-- What is written is no layout. -/
theorem starts_write (hlex : d.Lexical) : Starts (d.write ++ rest) := by
  have hatom : ∀ d : Datum, d.Lexical → (∀ a e, d ≠ .pair a e) → Starts (d.writeAtom ++ rest) := by
    intro d hlex hatom
    have htext : Text .datum _ d (d.writeAtom ++ []) [] := text_writeAtom hlex hatom (Nat.le_refl _) rfl
    obtain ⟨b, bs, hwrite, -⟩ := htext.opens
    have hstarts := htext.starts
    rw [List.append_nil] at hwrite hstarts
    rw [hwrite] at hstarts ⊢
    exact hstarts
  cases d with
  | pair a d =>
    rintro _ ⟨⟩
    decide
  | _ => exact hatom _ hlex (by simp)

/-- No text denotes a list that starts with the symbol `.`. -/
theorem not_text_dot {text : Bytes} : ¬ Text .datum k (.pair (.sym [ch '.']) d) text rest := by
  generalize he : Datum.pair (.sym [ch '.']) d = e
  intro h
  cases h with
  | quote _ _ => exact absurd (Datum.sym.inj (Datum.pair.inj he).1) (by decide)
  | list hlist =>
    subst he
    cases hlist with
    | elem _ hdot ha hd =>
      cases ha with
      | list hlist => cases hlist
      | symbol _ hmid =>
        obtain ⟨b, bs, rfl⟩ := List.exists_cons_of_length_pos (Nat.zero_lt_of_lt hd.length_lt)
        exact hdot ⟨b, bs, rfl, hmid⟩
  | _ => cases he

/-- A text that denotes a list starts with an element of it, or with the dot before its tail. -/
theorem Text.element {a : Datum} {lay X rest' : Bytes} {started : Bool} (hlay : Layout lay) (hlex : a.Lexical)
    (h : Text (.list started) k (.pair a d) (lay ++ (a.write ++ X)) rest') :
    (¬ Dot (a.write ++ X) ∧ ∃ mid, Text .datum k a (a.write ++ X) mid ∧ Text (.list true) k d mid rest') ∨
    Dot (a.write ++ X) ∧ ∃ text rest, Text .datum k (.pair a d) text rest := by
  generalize htext : lay ++ (a.write ++ X) = text at h
  cases h with
  | elem hlay' hdot ha hd =>
    have heq := layout_unique hlay hlay' (starts_write hlex) ha.starts htext
    rw [heq]
    exact .inl ⟨hdot, _, ha, hd⟩
  | @dotted _ _ lay' lay'' _ text _ hlay' _ _ hdot hd =>
    have hstarts : Starts (ch '.' :: lay'' ++ text) := by
      rintro _ ⟨⟩
      decide
    have heq := layout_unique hlay hlay' (starts_write hlex) hstarts (htext.trans (by simp))
    rw [heq]
    exact .inr ⟨hdot, _, _, hd⟩

theorem dotless_of_text (hlex : d.Lexical) :
    (∀ k rest rest', isTerminator rest.head? = true → Text .datum k d (d.write ++ rest) rest' → d.Dotless) ∧
    ∀ k rest rest', Text (.list true) k d (d.writeRest ++ ch ')' :: rest) rest' → d.Dotless := by
  induction d with
  | pair a d iha ihd =>
    obtain ⟨hdota, -⟩ := iha hlex.1
    obtain ⟨-, hdotd⟩ := ihd hlex.2
    have helem : ∀ k rest rest' lay started, Layout lay →
        Text (.list started) k (.pair a d) (lay ++ (a.write ++ (d.writeRest ++ ch ')' :: rest))) rest' →
          (Datum.pair a d).Dotless := by
      intro k rest rest' lay started hlay h
      rcases h.element hlay hlex.1 with ⟨hdot, mid, ha, hd⟩ | ⟨hdot, text, rest, htext⟩
      · have hane : a ≠ .sym [ch '.'] := by
          rintro rfl
          have hnext : isTerminator (d.writeRest ++ ch ')' :: rest).head? = true := terminator_writeRest
          cases hrest : d.writeRest ++ ch ')' :: rest with
          | nil => simp at hrest
          | cons b bs =>
            rw [hrest] at hdot hnext
            exact hdot ⟨b, bs, rfl, hnext⟩
        have hadot := hdota k _ mid terminator_writeRest ha
        have hmid := ((text_write hlex.1 hadot).1 (a.nest 0) _ (Nat.le_refl _) terminator_writeRest).unique ha
        rw [← hmid.2] at hd
        exact ⟨hane, hadot, hdotd k _ _ hd⟩
      · cases dot_write hlex.1 hdot
        exact absurd htext not_text_dot
    constructor
    · intro k rest rest' _ h
      have hwrite : (Datum.pair a d).write ++ rest = ch '(' ::
          ([] ++ (a.write ++ (d.writeRest ++ ch ')' :: rest))) := by
        simp [Datum.write]
      rw [hwrite] at h
      generalize htext : ch '(' :: ([] ++ (a.write ++ (d.writeRest ++ ch ')' :: rest))) = text at h
      generalize he : Datum.pair a d = e at h
      cases h with
      | list hlist =>
        subst he
        cases htext
        exact helem _ _ _ _ _ .nil hlist
      | quote _ _ => cases htext
      | _ => cases he
    · intro k rest rest' h
      have hwrite : (Datum.pair a d).writeRest ++ ch ')' :: rest = [ch ' '] ++
          (a.write ++ (d.writeRest ++ ch ')' :: rest)) := by
        simp [Datum.writeRest]
      exact helem k rest rest' _ _ layout_space (hwrite ▸ h)
  | _ => exact ⟨fun _ _ _ _ _ => trivial, fun _ _ _ _ => trivial⟩

end Texts

/-! ## The printer -/

/-- How many cells the spine has. -/
def Datum.cells : Datum → Nat
  | .pair _ d => d.cells + 1
  | _ => 0

/-- With this heap and these symbols, at depth `k` of the printer, `m` adds the text to what
has been gathered, and leaves the state as it is. -/
def Writes (h : Heap) (names : List Bytes) (k : Nat) (m : Bytes → ML Bytes) (text : Bytes) : Prop :=
  ∀ user s, s.heap = h → s.symtab.entries = names → s.printDepth = k →
    wp Mode.fully (m user) s (fun u t => u = user ++ text ∧ t = s) (fun _ _ => False)

section Printer
variable {h : Heap} {names : List Bytes} {k n : Nat} {m f : Bytes → ML Bytes} {text text' : Bytes}
    {v w : Val} {d : Datum}
  {K : Nat → Prop} {c : Config}

theorem Writes.emit : Writes h names k (fun user => emitTo Sink.gather user text) text := by
  intro user s _ _ _
  apply wp_ite
  · rintro rfl
    exact wp_pure ⟨(List.append_nil _).symm, rfl⟩
  · exact fun _ => wp_pure ⟨rfl, rfl⟩

theorem Writes.bind (hm : Writes h names k m text) (hf : Writes h names k f text') :
    Writes h names k (fun user => m user >>= f) (text ++ text') := by
  intro user s hheap hnames hdepth
  apply wp_seq (hm user s hheap hnames hdepth)
  rintro _ t ⟨rfl, rfl⟩
  rw [← List.append_assoc]
  exact hf _ t hheap hnames hdepth

/-- After a look at the heap. -/
theorem Writes.look {α : Type} {r : ML α} {g : α → Bytes → ML Bytes} {Q : α → Prop}
    (hr : ∀ s, s.heap = h → s.symtab.entries = names → wp Mode.fully r s (fun a t => t = s ∧ Q a) (fun _ _ => False))
    (hg : ∀ a, Q a → Writes h names k (g a) text) : Writes h names k (fun user => r >>= fun a => g a user) text := by
  intro user s hheap hnames hdepth
  apply wp_seq (hr s hheap hnames)
  rintro a t ⟨rfl, ha⟩
  exact hg a ha user t hheap hnames hdepth

theorem Writes.isPair {a e : Val} {g : Bool → Bytes → ML Bytes} (ho : h.Has v (.pair a e))
    (hg : Writes h names k (g true) text) :
    Writes h names k (fun user => mlIsPair v >>= fun b => g b user) text := by
  have hheld : h.Holds v := by
    rintro x rfl -
    obtain ⟨_, ⟨⟩, hx⟩ := ho
    exact ⟨_, hx⟩
  apply Writes.look (Q := fun b => b = true) _ fun b hb => hb ▸ hg
  rintro s rfl -
  exact wp_mono (mlIsPair_wp fun _ => hheld) (fun b t ht => ⟨ht.1, ht.2.2 ⟨(a, e), ho⟩⟩) fun _ _ h => h

theorem Writes.notPair {g : Bool → Bytes → ML Bytes} (hheld : h.Holds v) (hends : h.Ends v)
    (hg : Writes h names k (g false) text) :
    Writes h names k (fun user => mlIsPair v >>= fun b => g b user) text := by
  apply Writes.look (Q := fun b => b = false) _ fun b hb => hb ▸ hg
  rintro s rfl -
  apply wp_mono (mlIsPair_wp fun _ => hheld) _ fun _ _ h => h
  rintro b t ⟨rfl, hb⟩
  refine ⟨rfl, Bool.eq_false_iff.2 fun htrue => ?_⟩
  obtain ⟨x, hx⟩ := hb.1 htrue
  exact hends _ _ hx

theorem Writes.car {a e : Val} {g : Val → Bytes → ML Bytes} (ho : h.Has v (.pair a e))
    (hg : Writes h names k (g a) text) :
    Writes h names k (fun user => Microlisp.car v >>= fun b => g b user) text := by
  rintro user s rfl hnames hdepth
  exact car_bind ho (hg user s rfl hnames hdepth)

theorem Writes.cdr {a e : Val} {g : Val → Bytes → ML Bytes} (ho : h.Has v (.pair a e))
    (hg : Writes h names k (g e) text) :
    Writes h names k (fun user => Microlisp.cdr v >>= fun b => g b user) text := by
  rintro user s rfl hnames hdepth
  exact cdr_bind ho (hg user s rfl hnames hdepth)

/-! ### Atoms -/

theorem emitQuotedLoop_writes (bs run : Bytes) :
    Writes h names k (emitQuotedLoop Sink.gather bs run) (run ++ bs.flatMap writeByte) := by
  induction bs generalizing run with
  | nil =>
    rw [List.flatMap_nil, List.append_nil]
    exact .emit
  | cons b bs ih =>
    intro user s hheap hnames hdepth
    apply wp_ite
    · intro hb
      have hwrite : run ++ (b :: bs).flatMap writeByte = run ++ (escapeOf b ++ ([] ++ bs.flatMap writeByte)) := by
        simp [writeByte, hb]
      rw [hwrite]
      exact (Writes.emit.bind (Writes.emit.bind (ih []))) user s hheap hnames hdepth
    · intro hb
      have hwrite : run ++ (b :: bs).flatMap writeByte = run ++ [b] ++ bs.flatMap writeByte := by
        simp [writeByte, hb]
      rw [hwrite]
      exact ih (run ++ [b]) user s hheap hnames hdepth

theorem Heap.Shows.ends (hv : h.Shows names K d v) (hatom : ∀ a e, d ≠ .pair a e) : h.Ends v := by
  rintro x y ⟨a, rfl, ha⟩
  rcases (Heap.shows_obj hv).2 with ⟨bytes, rfl, ho⟩ | ⟨p, q, _, _, rfl, -⟩
  · rw [ha] at ho
    cases ho
  · exact hatom _ _ rfl

/-- What `print_value_inner` does with an atom. -/
theorem printAtom_writes {pv : Val → Bytes → ML Bytes} (hv : h.Shows names K d v) (hatom : ∀ a e, d ≠ .pair a e) :
    Writes h names k (printValueInner Sink.gather true pv v) d.writeAtom := by
  have hends := hv.ends hatom
  have hheld := hv.valOk.holds
  cases d with
  | fix x =>
    obtain ⟨hx, rfl⟩ := hv
    have hvalue : mlFixInt (BitVec.ofInt 61 x) = x := mlFixInt_ofInt (by simpa [fitsFixnum] using hx)
    show Writes h names k (fun user => emitInt Sink.gather user (mlFixInt (BitVec.ofInt 61 x))) _
    rw [hvalue]
    exact .emit
  | nil =>
    cases hv
    exact .emit
  | bool b =>
    cases hv
    cases b <;> exact .emit
  | sym name =>
    obtain ⟨i, rfl, hfind⟩ := hv
    obtain ⟨hlt, hname, -⟩ := List.findIdx?_eq_some_iff_getElem.1 hfind
    apply Writes.look (Q := fun a => a = name) _ fun a ha => ha ▸ Writes.emit
    rintro s - rfl
    refine wp_gets ⟨rfl, ?_⟩
    rw [Symtab.name, List.getElem?_eq_getElem hlt, ← beq_iff_eq.1 hname]
    rfl
  | str bytes =>
    obtain ⟨a, rfl, -, ho⟩ := hv
    have hhas : h.Has (.obj a) (.string bytes) := ⟨a, rfl, ho⟩
    apply Writes.look (Q := fun b => b = true)
    · rintro s rfl -
      exact wp_mono (mlIsString_wp fun _ => hheld) (fun b t ht => ⟨ht.1, ht.2.2 ⟨_, hhas⟩⟩) fun _ _ h => h
    · rintro b rfl
      apply Writes.look (Q := fun bs => bs = bytes)
      · rintro s rfl -
        apply wp_mono (stringBytes_wp fun _ => ⟨_, hhas⟩) _ fun _ _ h => h
        rintro b t ⟨rfl, hb⟩
        cases hhas.unique hb
        exact ⟨rfl, rfl⟩
      · rintro bs rfl
        have hquoted : [ch '"'] ++ ([] ++ bs.flatMap writeByte ++ [ch '"']) = (Datum.str bs).writeAtom := by
          simp [Datum.writeAtom]
        rw [← hquoted]
        exact Writes.emit.bind ((emitQuotedLoop_writes bs []).bind .emit)
  | pair a e => exact absurd rfl (hatom a e)

/-! ### Pairs -/

/-- A call of the printer: one level down, and back. -/
theorem printValue_writes (hk : k < c.maxPrintDepth)
    (hinner : Writes h names (k + 1) (printValueInner Sink.gather true (printValue Sink.gather c true n) v) text) :
    Writes h names k (printValue Sink.gather c true (n + 1) v) text := by
  rintro user s rfl rfl rfl
  apply wp_bind (wp_gets _)
  apply wp_ite
  · exact fun hdeep => absurd hk (by omega)
  · intro _
    apply wp_bind
    apply wp_modify
    apply wp_andThen
    apply wp_mono (hinner user { s with printDepth := s.printDepth + 1 } rfl rfl rfl) _ fun _ _ h => h
    rintro u t ⟨rfl, rfl⟩
    exact ⟨rfl, by simp [leavePrint]⟩

theorem Heap.Shows.spine (hv : h.Shows names K d v) : ∃ w, h.Spine v d.cells w ∧ h.Ends w := by
  induction d generalizing v with
  | pair a e _ ih =>
    obtain ⟨x, p, q, rfl, -, ho, -, hq⟩ := hv
    obtain ⟨w, hspine, hends⟩ := ih hq
    exact ⟨w, .cons ⟨x, rfl, ho⟩ hspine, hends⟩
  | _ => exact ⟨v, .nil, hv.ends (by simp)⟩

/-- With enough fuel a datum is written, and so is the rest of a list. -/
theorem printDatum_writes (hv : h.Shows names K d v) :
    (∀ n k, k + d.nest 1 ≤ c.maxPrintDepth → c.maxPrintDepth < k + n →
      Writes h names k (printValue Sink.gather c true n v) d.write) ∧
    ∀ n k bound, k + d.nestRest 1 ≤ c.maxPrintDepth → c.maxPrintDepth < k + n → d.cells < bound →
      Writes h names k (printSpine Sink.gather (printValue Sink.gather c true n) bound v) d.writeRest := by
  -- only a pair goes deeper; what is no pair is written at once, with or without a dot before it
  have hatoms : ∀ {d : Datum} {v : Val}, h.Shows names K d v → (∀ a e, d ≠ .pair a e) →
      (∀ n k, k + d.nest 1 ≤ c.maxPrintDepth → c.maxPrintDepth < k + n →
        Writes h names k (printValue Sink.gather c true n v) d.writeAtom) ∧
      ∀ n k bound, k + d.nestRest 1 ≤ c.maxPrintDepth → c.maxPrintDepth < k + n → 0 < bound →
        Writes h names k (printSpine Sink.gather (printValue Sink.gather c true n) bound v) d.writeRest := by
    intro d v hv hatom
    have hvalue : ∀ n k, k + 1 ≤ c.maxPrintDepth → c.maxPrintDepth < k + n →
        Writes h names k (printValue Sink.gather c true n v) d.writeAtom := by
      intro n k hk hn
      obtain ⟨n, rfl⟩ : ∃ m, n = m + 1 := ⟨n - 1, by omega⟩
      exact printValue_writes hk (printAtom_writes hv hatom)
    refine ⟨fun n k hk hn => hvalue n k (by cases d <;> simp_all [Datum.nest]) hn, ?_⟩
    intro n k bound hk hn hb
    obtain ⟨bound, rfl⟩ : ∃ m, bound = m + 1 := ⟨bound - 1, by omega⟩
    apply Writes.notPair hv.valOk.holds (hv.ends hatom)
    by_cases hnil : d = .nil
    · subst hnil
      cases hv
      intro user s _ _ _
      apply wp_ite nofun
      intro _
      apply wp_ite fun hne => absurd rfl hne
      exact fun _ => wp_pure ⟨(List.append_nil _).symm, rfl⟩
    · have hne : v ≠ mvNil := by
        rintro rfl
        rcases Heap.shows_imm hv with ⟨hd, -⟩ | ⟨-, hi⟩ | ⟨-, hi⟩
        · exact hnil hd
        · cases hi
        · cases hi
      have hwrite : d.writeRest = [ch ' ', ch '.', ch ' '] ++ d.writeAtom := by
        cases d <;> simp_all [Datum.writeRest]
      have hk' : k + 1 ≤ c.maxPrintDepth := by
        cases d <;> simp_all [Datum.nestRest]
      rw [hwrite]
      simp only [Bool.false_eq_true, if_false, if_pos hne]
      exact Writes.emit.bind (hvalue n k hk' hn)
  induction d generalizing v with
  | pair a e iha ihe =>
    obtain ⟨x, p, q, rfl, -, ho, hp, hq⟩ := hv
    obtain ⟨hcar, -⟩ := iha hp
    obtain ⟨-, hcdr⟩ := ihe hq
    have hhas : h.Has (.obj x) (.pair p q) := ⟨x, rfl, ho⟩
    constructor
    · intro n k hk hn
      simp only [Datum.nest] at hk
      obtain ⟨n, rfl⟩ : ∃ m, n = m + 1 := ⟨n - 1, by omega⟩
      apply printValue_writes (by omega)
      have hwrite : (Datum.pair a e).write = [ch '('] ++ ((a.write ++ e.writeRest) ++ [ch ')']) := by
        simp [Datum.write]
      rw [hwrite]
      have hheld : h.Holds (.obj x) := by
        rintro _ ⟨⟩ -
        exact ⟨_, ho⟩
      apply Writes.look (Q := fun b => b = false)
      · rintro s rfl -
        apply wp_mono (mlIsString_wp fun _ => hheld) _ fun _ _ h => h
        rintro b t ⟨rfl, hb⟩
        refine ⟨rfl, Bool.eq_false_iff.2 fun htrue => ?_⟩
        obtain ⟨bytes, hbytes⟩ := hb.1 htrue
        cases hhas.unique hbytes
      rintro _ rfl
      apply Writes.isPair hhas
      apply Writes.emit.bind
      apply Writes.bind _ .emit
      apply Writes.car hhas
      apply (hcar n (k + 1) (by omega) (by omega)).bind
      apply Writes.cdr hhas
      apply Writes.look (Q := fun bound => bound = h.next + 1)
      · rintro s rfl -
        exact wp_gets ⟨rfl, rfl⟩
      rintro _ rfl
      -- a spine has fewer cells than the heap has objects
      obtain ⟨w, hspine, hends⟩ := Heap.Shows.spine hq
      exact hcdr n (k + 1) _ (by omega) (by omega) (Nat.lt_succ_of_lt (hspine.lt_next hends))
    · intro n k bound hk hn hb
      simp only [Datum.nestRest] at hk
      simp only [Datum.cells] at hb
      obtain ⟨bound, rfl⟩ : ∃ m, bound = m + 1 := ⟨bound - 1, by omega⟩
      have hwrite : (Datum.pair a e).writeRest = [ch ' '] ++ (a.write ++ e.writeRest) := by
        simp [Datum.writeRest]
      rw [hwrite]
      apply Writes.isPair hhas
      apply Writes.emit.bind
      apply Writes.car hhas
      apply (hcar n k (by omega) hn).bind
      apply Writes.cdr hhas
      exact hcdr n k bound (by omega) hn (by omega)
  | nil => exact hatoms hv (by simp)
  | fix z => exact hatoms hv (by simp)
  | bool b => exact hatoms hv (by simp)
  | sym name => exact hatoms hv (by simp)
  | str bytes => exact hatoms hv (by simp)

/-- Printing gathers the text of the datum, and changes nothing. -/
theorem mlPrint_writes {s : State} (hv : s.Shows K d v) (hdepth : s.printDepth = 0)
    (hnest : d.nest 1 ≤ c.maxPrintDepth) :
    (mlPrint Sink.gather c v true [] s).res = .ok d.write ∧ (mlPrint Sink.gather c v true [] s).state = s := by
  have hprint : wp Mode.fully (mlPrint Sink.gather c v true []) s (fun u t => u = [] ++ d.write ∧ t = s)
      (fun _ _ => False) :=
    wp_bind (wp_gets ((printDatum_writes hv).1 _ _ (by omega) (by omega) [] s rfl rfl rfl))
  obtain ⟨u, hres, rfl, hstate⟩ := ok_of_wp_fully hprint
  exact ⟨hres, hstate⟩

end Printer

end Microlisp
