import Microlisp.Reading.Known
/-!
# Reading what was written

The text that the printer writes for a datum is in the reader's grammar, and denotes the
datum. A symbol of the single byte `.` is an exception: inside a list the reader takes it
for the dot before the tail.
-/
namespace Microlisp

open Prog Reader

/-! ## What can be written -/

section Names
variable {h : Heap} {names : List Bytes} {K : Nat → Prop} {d e : Datum} {v : Val}

theorem Heap.Shows.names_sub (hv : h.Shows names K d v) : ∀ n ∈ d.names, n ∈ names := by
  induction d generalizing v with
  | sym name =>
    obtain ⟨i, -, hfind⟩ := hv
    intro n hn
    cases List.mem_singleton.1 hn
    obtain ⟨hlt, hname, -⟩ := List.findIdx?_eq_some_iff_getElem.1 hfind
    rw [← eq_of_beq hname]
    exact List.getElem_mem hlt
  | pair a d iha ihd =>
    obtain ⟨_, p, q, -, -, -, ha, hd⟩ := hv
    intro n hn
    rcases List.mem_append.1 hn with hn | hn
    · exact iha ha n hn
    · exact ihd hd n hn
  | _ => nofun

theorem Heap.Shows.lexical (hv : h.Shows names K d v) (hnames : ∀ n ∈ d.names, symbolText n) : d.Lexical := by
  induction d generalizing v with
  | fix x => exact hv.1
  | sym name => exact hnames name (List.mem_singleton.2 rfl)
  | pair a d iha ihd =>
    obtain ⟨_, p, q, -, -, -, ha, hd⟩ := hv
    exact ⟨iha ha fun n hn => hnames n (List.mem_append_left _ hn), ihd hd fun n hn => hnames n
      (List.mem_append_right _ hn)⟩
  | _ => trivial

theorem Datum.dotless_of_names (hnames : ∀ n ∈ d.names, n ≠ [ch '.']) : d.Dotless := by
  induction d with
  | pair a d iha ihd =>
    refine ⟨?_, iha fun n hn => hnames n (List.mem_append_left _ hn), ihd fun n hn => hnames n
      (List.mem_append_right _ hn)⟩
    rintro rfl
    exact hnames [ch '.'] (List.mem_append_left _ (List.mem_singleton.2 rfl)) rfl
  | _ => trivial

theorem symbolText_quote : symbolText (ascii "quote") := by
  refine ⟨by decide, List.forall_mem_iff_forall_getElem.2 (by decide), ?_⟩
  unfold startsOther
  decide

/-- What the reader takes can be written: its fixnums are in range, and its symbols were read. -/
theorem Text.lexical {p : Part} {k : Nat} {text rest : Bytes} (h : Text p k d text rest) : d.Lexical := by
  induction h with
  | number _ hfits _ => exact hfits
  | symbol hname _ => exact hname
  | quote _ _ ih => exact ⟨symbolText_quote, ih, trivial⟩
  | list _ ih => exact ih
  | elem _ _ _ _ iha ihd => exact ⟨iha, ihd⟩
  | dotted _ _ _ _ _ ih => exact ih
  | _ => trivial

end Names

/-! ## Written, and read back -/

section RoundTrip
variable {c : Config} {s : State} {d e : Datum} {v : Val}

/-- A text of a datum whose names are known is read. -/
theorem mlRead_text (hc : ∀ n size, c.alloc n size = true) (hs : s.Ready c) {text rest : Bytes}
    (hknown : ∀ n ∈ d.names, n ∈ s.symtab.entries)
    (htext : Text .datum c.maxReadDepth d (text ++ rest) rest) :
    ∃ v, (mlRead c (.start (text ++ rest)) s).res = .ok (v, (Reader.start (text ++ rest)).eat text) ∧
      (mlRead c (.start (text ++ rest)) s).state.Shows (fun _ => True) d v := by
  have hpast : (Reader.start (text ++ rest)).Past ((Reader.start (text ++ rest)).eat text) := past_eat rfl
  have hrest : ((Reader.start (text ++ rest)).eat text).rest = rest := rest_eat rfl
  have htook : Took c.maxReadDepth (.start (text ++ rest)) d ((Reader.start (text ++ rest)).eat text) := by
    rw [Took.iff, hrest]
    exact ⟨hpast, [], _, .nil, rfl, htext⟩
  have hmem := mlRead_known hc hs (parse_eq_some.2 htook) hknown
  exact (mlRead_grammar c s hs _ _ d hmem).2 (Took.iff.1 htook)

theorem mlRead_write (hc : ∀ n size, c.alloc n size = true) (hs : s.Ready c) (hv : s.Shows (fun _ => True) d v)
    (hlex : d.Lexical)
    (hdot : d.Dotless) (hnest : d.nest 0 ≤ c.maxReadDepth) {rest : Bytes} (hrest : isTerminator rest.head? = true) :
    ∃ v', (mlRead c (.start (d.write ++ rest)) s).res = .ok (v', (Reader.start (d.write ++ rest)).eat d.write) ∧
      (mlRead c (.start (d.write ++ rest)) s).state.Shows (fun _ => True) d v' :=
  mlRead_text hc hs hv.names_sub ((text_write hlex hdot).1 _ rest hnest hrest)

/-- A datum is printed, and read back from its text whatever follows. The printer counts an
atom inside a list for one more level. -/
theorem mlPrint_mlRead (hc : ∀ n size, c.alloc n size = true) (hs : s.Ready c) (hdepth : s.printDepth = 0)
    (hv : s.Shows (fun _ => True) d v) (hnames : ∀ n ∈ d.names, symbolText n ∧ n ≠ [ch '.'])
    (hprint : d.nest 1 ≤ c.maxPrintDepth) (hread : d.nest 0 ≤ c.maxReadDepth) :
    ∃ text, (mlPrint Sink.gather c v true [] s).res = .ok text ∧ (mlPrint Sink.gather c v true [] s).state = s ∧
      ∀ rest, isTerminator rest.head? = true → ∃ v',
        (mlRead c (.start (text ++ rest)) s).res = .ok (v', (Reader.start (text ++ rest)).eat text) ∧
        (mlRead c (.start (text ++ rest)) s).state.Shows (fun _ => True) d v' := by
  obtain ⟨hres, hstate⟩ := mlPrint_writes hv hdepth hprint
  have hlex : d.Lexical := hv.lexical fun n hn => (hnames n hn).1
  have hdot : d.Dotless := Datum.dotless_of_names fun n hn => (hnames n hn).2
  exact ⟨d.write, hres, hstate, fun rest hrest => mlRead_write hc hs hv hlex hdot hread hrest⟩

end RoundTrip

/-- `(quote #t)`. -/
def Tree.quoted : Tree := .list [.leaf (.sym 0), .leaf mvTrue]
def Datum.quoted : Datum := .list [.sym (ascii "quote"), .bool true] .nil

theorem State.given_quoted : (State.given .quoted).Shows (fun _ => True) .quoted Tree.quoted.value := by
  refine ⟨_, .sym 0, .obj 2, rfl, trivial, by decide, ⟨0, rfl, by decide⟩, ?_⟩
  exact ⟨2, mvTrue, mvNil, rfl, trivial, by decide, rfl, rfl⟩

theorem State.given_ready {c : Config} {t : Tree} (htop : c.toplevelEnv = .obj 1) (hquote : c.symQuote = .sym 0)
    (ht : t.simple = true) :
    (State.given t).Ready c where
  wf := (State.given_wellFormed htop ht).1
  pending := rfl
  table := (State.created_ready (c := c) htop hquote).table
  quote := (State.created_ready (c := c) htop hquote).quote.transfer (fun _ _ h => h.elim) (List.prefix_refl _)
    fun _ h _ => h

theorem Datum.quoted_names : ∀ n ∈ Datum.quoted.names, symbolText n ∧ n ≠ [ch '.'] := by
  intro n hn
  cases List.mem_singleton.1 hn
  exact ⟨symbolText_quote, by decide⟩

theorem mlPrint_mlRead_quoted :
    ∃ text, (mlPrint Sink.gather .created Tree.quoted.value true [] (State.given .quoted)).res = .ok text ∧
    (mlPrint Sink.gather .created Tree.quoted.value true [] (State.given .quoted)).state = State.given .quoted ∧
    ∀ rest, isTerminator rest.head? = true → ∃ v',
      (mlRead .created (.start (text ++ rest)) (State.given .quoted)).res = .ok
        (v', (Reader.start (text ++ rest)).eat text) ∧
      (mlRead .created (.start (text ++ rest)) (State.given .quoted)).state.Shows (fun _ => True) .quoted v' :=
  mlPrint_mlRead (fun _ _ => rfl) (State.given_ready rfl rfl (by decide +kernel)) rfl State.given_quoted
    Datum.quoted_names
    (by decide) (by decide)

/-- A list is not printed where its own nesting is the limit: its elements are one level deeper. -/
theorem mlPrint_list_limit : (State.given .quoted).Ready { Config.created with maxPrintDepth := 1 } ∧
    (State.given .quoted).Shows (fun _ => True) .quoted Tree.quoted.value ∧
      (∀ n ∈ Datum.quoted.names, symbolText n ∧ n ≠ [ch '.']) ∧
    Datum.quoted.nest 0 = 1 ∧
    (mlPrint Sink.gather { Config.created with maxPrintDepth := 1 } Tree.quoted.value true [] (State.given .quoted)).res
      = .error (.err .errPrintDepth) :=
  ⟨State.given_ready rfl rfl (by decide +kernel), State.given_quoted, Datum.quoted_names, by decide, by decide +kernel⟩

/-! ## Data made of what was read -/

/-- The symbols, strings, fixnums and booleans of a datum. -/
def Datum.atoms : Datum → List Datum
  | .nil => []
  | .pair a d => a.atoms ++ d.atoms
  | d => [d]

/-- What `cons` and `list` make of them. -/
inductive Datum.Makes (d : Datum) : Datum → Prop
  | atom {e : Datum} : e ∈ d.atoms → Makes d e
  | nil : Makes d .nil
  | cons {a e : Datum} : Makes d a → Makes d e → Makes d (.pair a e)

section Makes
variable {d e : Datum}

theorem Datum.Lexical.atom (hlex : d.Lexical) (he : e ∈ d.atoms) : e.Lexical := by
  induction d with
  | pair a d iha ihd =>
    rcases List.mem_append.1 he with he | he
    · exact iha hlex.1 he
    · exact ihd hlex.2 he
  | nil => cases he
  | _ =>
    cases List.mem_singleton.1 he
    exact hlex

theorem Datum.Makes.lexical (he : d.Makes e) (hlex : d.Lexical) : e.Lexical := by
  induction he with
  | atom he => exact hlex.atom he
  | nil => trivial
  | cons _ _ iha ihd => exact ⟨iha, ihd⟩

/-- The datum itself is among them. -/
theorem Datum.Makes.self (d : Datum) : d.Makes d := by
  have hmono : ∀ {d e f : Datum}, (∀ x ∈ d.atoms, x ∈ e.atoms) → d.Makes f → e.Makes f := by
    intro d e f hsub hf
    induction hf with
    | atom hf => exact .atom (hsub _ hf)
    | nil => exact .nil
    | cons _ _ iha ihd => exact .cons iha ihd
  induction d with
  | nil => exact .nil
  | pair a d iha ihd =>
    exact .cons (hmono (fun _ => List.mem_append_left _) iha) (hmono (fun _ => List.mem_append_right _) ihd)
  | _ => exact .atom (List.mem_singleton.2 rfl)

end Makes

section Unfolds
variable {c : Config} {s : State} {h : Heap} {names : List Bytes} {K : Nat → Prop} {d e : Datum} {v : Val}

/-- A datum is a finite tree, of as many levels of the printer. -/
theorem Heap.Shows.unfolds (hv : h.Shows names K d v) :
    ∃ t, h.Unfolds v t ∧ t.nest = d.nest 1 ∧ t.nestRest = d.nestRest 1 := by
  have hleaf : ∀ {d w}, h.Shows names K d w → (∀ a e, d ≠ .pair a e) → h.Unfolds w (.leaf w) :=
    fun hw hatom => ⟨rfl, hw.ends hatom, hw.valOk.holds⟩
  have hatoms : ∀ {d w}, h.Shows names K d w → (∀ a e, d ≠ .pair a e) → w ≠ mvNil → d.nest 1 = 1 → d.nestRest 1 = 1 →
      ∃ t, h.Unfolds w t ∧ t.nest = d.nest 1 ∧ t.nestRest = d.nestRest 1 := by
    intro d w hw hatom hnil hnest hrest
    refine ⟨.leaf w, hleaf hw hatom, hnest.symm, ?_⟩
    rw [hrest, Tree.nestRest, if_neg hnil]
  induction d generalizing v with
  | nil =>
    refine ⟨.leaf v, hleaf hv (by simp), rfl, ?_⟩
    cases hv
    rfl
  | pair a d iha ihd =>
    obtain ⟨x, p, q, rfl, -, ho, ha, hd⟩ := hv
    obtain ⟨t, ht, hnest, -⟩ := iha ha
    obtain ⟨u, hu, -, hrest⟩ := ihd hd
    refine ⟨.node t u, ⟨p, q, ⟨x, rfl, ho⟩, ht, hu⟩, ?_, ?_⟩
    · rw [Tree.nest, Datum.nest, hnest, hrest]
    · rw [Tree.nestRest, Datum.nestRest, hnest, hrest]
  | fix x =>
    apply hatoms hv (by simp) _ rfl rfl
    rintro rfl
    cases hv.2
  | bool b =>
    apply hatoms hv (by simp) _ rfl rfl
    rintro rfl
    cases b <;> cases hv
  | sym name =>
    obtain ⟨i, rfl, hfind⟩ := hv
    exact hatoms ⟨i, rfl, hfind⟩ (by simp) (fun h => by cases h) rfl rfl
  | str bytes =>
    obtain ⟨x, rfl, hx, ho⟩ := hv
    exact hatoms ⟨x, rfl, hx, ho⟩ (by simp) (fun h => by cases h) rfl rfl

/-- Where printing succeeds, it prints the text of the datum. -/
theorem text_of_mlPrint (hv : s.Shows K d v) (hdepth : s.printDepth = 0) {text : Bytes}
    (hprint : (mlPrint Sink.gather c v true [] s).res = .ok text) : text = d.write := by
  obtain ⟨t, ht, hnest, -⟩ := hv.unfolds
  have hfits : d.nest 1 ≤ c.maxPrintDepth := by
    rw [← hnest]
    by_contra hdeep
    rw [(mlPrint_tree Sink.gather_accepts ht hdepth).1.2 (Nat.lt_of_not_le hdeep)] at hprint
    cases hprint
  rw [(mlPrint_writes hv hdepth hfits).1] at hprint
  cases hprint
  rfl

/-- What is made of read data is read back from what is printed for it if and only if it has no
pair with the symbol `.` as its `car`. -/
theorem mlPrint_mlRead_iff (hc : ∀ n size, c.alloc n size = true) {s₀ : State} (hs₀ : s₀.Ready c)
    {r r' : Reader} {w : Val}
    (hread : (mlRead c r s₀).res = .ok (w, r')) (hd : (mlRead c r s₀).state.Shows (fun _ => True) d w) (he : d.Makes e)
    (hs : s.Ready c) (hdepth : s.printDepth = 0) (hv : s.Shows (fun _ => True) e v) {text : Bytes}
    (hprint : (mlPrint Sink.gather c v true [] s).res = .ok text) (hnest : e.nest 0 ≤ c.maxReadDepth) :
    (∃ v' r'', (mlRead c (.start text) s).res = .ok (v', r'') ∧ (mlRead c (.start text) s).state.Shows
      (fun _ => True) e v') ↔
      e.Dotless := by
  have hlex : e.Lexical := by
    have hmem : (mlRead c r s₀).res ≠ .error (.err .errNomem) := by
      rw [hread]
      nofun
    obtain ⟨-, _, _, -, -, htext⟩ := (mlRead_grammar c s₀ hs₀ r r' d hmem).1 ⟨w, hread, hd⟩
    exact he.lexical htext.lexical
  obtain rfl := text_of_mlPrint hv hdepth hprint
  constructor
  · rintro ⟨v', r'', hres, he⟩
    have hmem : (mlRead c (.start e.write) s).res ≠ .error (.err .errNomem) := by
      rw [hres]
      nofun
    obtain ⟨-, lay, text, hlay, hwrite, htext⟩ := (mlRead_grammar c s hs _ r'' e hmem).1 ⟨v', hres, he⟩
    have hstart : [] ++ (e.write ++ []) = lay ++ text := by rwa [List.append_nil]
    have heq := layout_unique .nil hlay (starts_write hlex) htext.starts hstart
    exact (dotless_of_text hlex).1 _ [] _ rfl (heq ▸ htext)
  · intro hdot
    have hend : isTerminator ([] : Bytes).head? = true := rfl
    obtain ⟨v', hres, he⟩ := mlRead_write hc hs hv hlex hdot hnest hend
    rw [List.append_nil] at hres he
    exact ⟨v', _, hres, he⟩

end Unfolds

/-- `'#t` is read as `(quote #t)`. -/
theorem mlRead_quoted : ∃ v, (mlRead .created (.start (ascii "'#t")) .created).res = .ok (v,
    (Reader.start (ascii "'#t")).eat (ascii "'#t")) ∧
    (mlRead .created (.start (ascii "'#t")) .created).state.Shows (fun _ => True) .quoted v := by
  have htext : Text .datum 256 .quoted (ascii "'#t") [] := .quote .nil (.bool rfl)
  apply (mlRead_grammar .created .created (State.created_ready rfl rfl) _ _ _ (by decide +kernel)).2
  exact ⟨past_eat (List.append_nil _).symm, [], _, .nil, rfl, htext⟩

theorem mlPrint_mlRead_iff_quoted :
    (∃ v' r'', (mlRead .created (.start (ascii "(quote #t)")) (State.given .quoted)).res = .ok (v', r'') ∧
      (mlRead .created (.start (ascii "(quote #t)")) (State.given .quoted)).state.Shows (fun _ => True) .quoted v') ↔
    Datum.quoted.Dotless := by
  obtain ⟨w, hread, hd⟩ := mlRead_quoted
  have hprint : (mlPrint Sink.gather .created Tree.quoted.value true [] (State.given .quoted)).res = .ok
      (ascii "(quote #t)") :=
    (mlPrint_writes State.given_quoted rfl (by decide)).1
  exact mlPrint_mlRead_iff (fun _ _ => rfl) (State.created_ready rfl rfl) hread hd (.self _)
    (State.given_ready rfl rfl (by decide +kernel)) rfl State.given_quoted hprint (by decide)

/-- The quoted symbol `.` is read, and printed as a list whose end the reader takes for a tail. -/
theorem mlPrint_mlRead_dot : ∃ v r', (mlRead .created (.start (ascii "'.")) .created).res = .ok (v, r') ∧
    (mlRead .created (.start (ascii "'.")) .created).state.Shows (fun _ => True)
      (.list [.sym (ascii "quote"), .sym [ch '.']] .nil) v ∧
    (mlPrint Sink.gather .created v true [] (mlRead .created (.start (ascii "'.")) .created).state).res = .ok
      (ascii "(quote .)") ∧
    (mlRead .created (.start (ascii "(quote .)")) (mlRead .created (.start (ascii "'.")) .created).state).res
      = .error (.err .errReadSyntax) := by
  have hdot : symbolText [ch '.'] := by
    refine ⟨by decide, List.forall_mem_iff_forall_getElem.2 (by decide), ?_⟩
    unfold startsOther
    decide
  have hsymbol : Text .datum 256 (.sym [ch '.']) ([ch '.'] ++ []) [] := .symbol hdot rfl
  have htext : Text .datum 256 (.list [.sym (ascii "quote"), .sym [ch '.']] .nil) (ascii "'.") [] := .quote .nil hsymbol
  have hread := (mlRead_grammar .created .created (State.created_ready rfl rfl) (.start (ascii "'."))
    ((Reader.start (ascii "'.")).eat (ascii "'.")) _ (by decide +kernel)).2
    ⟨past_eat (List.append_nil _).symm, [], _, .nil, rfl, htext⟩
  obtain ⟨v, hres, hv⟩ := hread
  have hdepth : (mlRead .created (.start (ascii "'.")) .created).state.printDepth = 0 := by decide +kernel
  exact ⟨v, _, hres, hv, (mlPrint_writes hv hdepth (by decide)).1, by decide +kernel⟩

end Microlisp
