import Microlisp.Balance.Eval
import Microlisp.PrintBuffer
import Microlisp.Reading.Along
import Microlisp.Reading.Eof
import Microlisp.Truncated
/-!
# A script in pieces

A source that ends with a newline ends no form of the source that follows it, so the two may
be evaluated one after the other: the calls do what one call does on both together.
-/
namespace Microlisp

open Prog Reader

/-! ## Where a form ends -/

section Endings
variable {bytes text rest lay : Bytes} {part : Part} {k limit : Nat} {d : Datum} {r r' : Reader}

theorem StringText.last (h : StringText bytes text rest) : ∃ pre, text = pre ++ ch '"' :: rest := by
  induction h with
  | close => exact ⟨[], rfl⟩
  | @plain b _ _ _ _ _ _ ih =>
    obtain ⟨pre, rfl⟩ := ih
    exact ⟨b :: pre, rfl⟩
  | @escape b esc _ _ _ _ _ ih =>
    obtain ⟨pre, rfl⟩ := ih
    exact ⟨ch '\\' :: esc ++ pre, by simp⟩

theorem last_of_forall {p : UInt8 → Prop} (hne : text ≠ []) (h : ∀ b ∈ text, p b) : ∃ pre b, text = pre ++ [b] ∧ p b :=
  ⟨text.dropLast, text.getLast hne, (List.dropLast_append_getLast hne).symm, h _ (List.getLast_mem hne)⟩

/-- The last byte of a datum is not a newline. -/
theorem Text.last (h : Text part k d text rest) : ∃ pre b, text = pre ++ b :: rest ∧ b ≠ ch '\n' := by
  induction h with
  | @bool _ b =>
    refine ⟨[ch '#'], _, rfl, ?_⟩
    cases b <;> decide
  | number hx _ _ =>
    obtain ⟨sign, n, digits, -, hne, hdigits, rfl, -⟩ := hx
    obtain ⟨pre, b, rfl, hb⟩ := last_of_forall hne hdigits
    refine ⟨sign ++ pre, b, by simp, ?_⟩
    rintro rfl
    exact absurd hb (by decide)
  | symbol hname _ =>
    obtain ⟨hne, hterm, -⟩ := hname
    obtain ⟨pre, b, rfl, hb⟩ := last_of_forall hne hterm
    refine ⟨pre, b, by simp, ?_⟩
    rintro rfl
    exact absurd hb (by decide)
  | string hs =>
    obtain ⟨pre, rfl⟩ := hs.last
    exact ⟨ch '"' :: pre, _, rfl, by decide⟩
  | @quote _ _ lay _ _ _ _ ih =>
    obtain ⟨pre, b, rfl, hb⟩ := ih
    exact ⟨ch '\'' :: lay ++ pre, b, by simp, hb⟩
  | list _ ih =>
    obtain ⟨pre, b, rfl, hb⟩ := ih
    exact ⟨ch '(' :: pre, b, rfl, hb⟩
  | @close _ _ lay _ _ => exact ⟨lay, _, rfl, by decide⟩
  | @elem _ _ _ _ lay _ _ _ _ _ _ _ ih ih' =>
    obtain ⟨pre', b', rfl, hb'⟩ := ih'
    obtain ⟨pre, b, rfl, -⟩ := ih
    exact ⟨lay ++ (pre ++ b :: pre'), b', by simp, hb'⟩
  | @dotted _ _ lay lay' lay'' _ _ _ _ _ _ _ ih =>
    obtain ⟨pre, b, rfl, -⟩ := ih
    exact ⟨lay ++ ch '.' :: lay' ++ (pre ++ b :: lay''), ch ')', by simp, by decide⟩

/-- A text that ends with a newline goes on after each of its forms, to the newline. -/
theorem Took.newline (h : Took limit r d r') (hr : r.rest.getLast? = some (ch '\n')) :
    r'.rest.getLast? = some (ch '\n') := by
  obtain ⟨⟨bs, hrest, -⟩, htext⟩ := h
  have hlast : r'.rest ≠ [] := by
    intro hnil
    obtain ⟨pre, b, hskip, hb⟩ := htext.last
    obtain ⟨lay, hlay, -⟩ := past_skip r
    rw [hlay, hskip, hnil, ← List.append_assoc, List.getLast?_concat] at hr
    exact hb (Option.some.inj hr)
  rwa [hrest, List.getLast?_append_of_ne_nil _ hlast] at hr

end Endings

/-- The reader takes one form after another, up to the end of the text. -/
inductive ReadsOut (limit : Nat) : Reader → Prop
  | done {r r' : Reader} : parse limit r = .ok (none, r') → ReadsOut limit r
  | form {r r' : Reader} {d : Datum} : parse limit r = .ok (some d, r') → ReadsOut limit r' → ReadsOut limit r

/-! ## From one text into the next -/

section Joints
variable {A B lay : Bytes} {r r' : Reader} {limit : Nat}

theorem skip_eat (h : r.rest = lay ++ B) (hlay : Layout lay) : skipWsAndComments r = skipWsAndComments (r.eat lay) := by
  have hrest : (r.eat lay).rest = B := rest_eat h
  rcases skip_cases (r.eat lay) with ⟨lay', b, bs, heq, hlay', hstarts, hskip⟩ |
    ⟨⟨lay', last, heq, hlay', hlast⟩, hskip⟩
  · rw [hrest] at heq
    rw [hskip, ← eat_append]
    exact skip_layout (by rw [h, heq, List.append_assoc]) (hlay.append hlay') hstarts
  · rw [hrest] at heq
    rw [hskip, hrest, ← eat_append, ← h]
    exact skip_trailing ⟨lay ++ lay', last, by rw [h, heq, List.append_assoc], hlay.append hlay', hlast⟩

theorem trailing_newline (h : Trailing A) (hA : A.getLast? = some (ch '\n')) : Layout A := by
  obtain ⟨lay, last, rfl, hlay, rfl | ⟨text, htext, rfl⟩⟩ := h
  · rwa [List.append_nil]
  · exfalso
    cases htail : text.getLast? with
    | none =>
      obtain rfl := List.getLast?_eq_none_iff.1 htail
      rw [List.getLast?_concat] at hA
      exact absurd (Option.some.inj hA) (by decide)
    | some b =>
      have hne : text ≠ [] := by
        rintro rfl
        cases htail
      rw [List.getLast?_append_of_ne_nil _ (List.cons_ne_nil _ _), List.getLast?_cons, htail] at hA
      obtain rfl : b = ch '\n' := Option.some.inj hA
      exact htext (List.mem_of_getLast? htail)

theorem column_eat (h : r.rest = A ++ B) (hA : A.getLast? = some (ch '\n')) : (r.eat A).column = 1 := by
  obtain ⟨pre, rfl⟩ := List.getLast?_eq_some_iff.1 hA
  rw [List.append_assoc] at h
  rw [eat_append]
  show (r.eat pre).advance.column = 1
  rw [column_advance (rest_eat h), if_pos rfl]

/-- Past the layout that ends the first text, the reader is at the start of the second one. -/
theorem along_start (h : r.Along B r') (hdepth : r.depth = 0) (hA : r.rest.getLast? = some (ch '\n'))
    (hend : (skipWsAndComments r).peek = none) : (skipWsAndComments (start B)).Along [] (skipWsAndComments r') := by
  have hlay := trailing_newline (trailing_of_skip hend) hA
  rw [skip_eat h.rest hlay]
  apply Along.skip _ fun hq => absurd rfl hq
  refine ⟨?_, ?_, ?_⟩
  · rw [rest_eat h.rest]
    exact (List.append_nil _).symm
  · rw [depth_eat, h.depth, hdepth]
    rfl
  · rw [column_eat h.rest hA]
    rfl

end Joints

/-! ## One form -/

/-- One turn of the read-eval loop: a form is read and evaluated, if there is one. -/
def evalForm (c : Config) (n : Nat) (r : Reader) : ML (Option (Val × Reader)) := do
  let (form, r) ← mlRead c r
  if form = mvEof then
    pure none
  else
    let sp ← mlGcSavepoint
    mlGcProtect c form
    let lastResult ← (mlEval c n form c.toplevelEnv).andThen (mlGcRestore sp)
    pure (some (lastResult, r))

/-- How the two turns end that read with `q` left out and with it. -/
inductive FormsAlong (limit : Nat) (q : Bytes) (r : Reader) : Option (Val × Reader) → Option (Val × Reader) → Prop
  | none : (skipWsAndComments r).peek = .none → FormsAlong limit q r .none .none
  | form {v : Val} {r₁ r₁' : Reader} : r.Beyond r₁ → r₁.Along q r₁' → (q ≠ [] → ∃ y, parse limit r = .ok (y, r₁)) →
      FormsAlong limit q r (some (v, r₁)) (some (v, r₁'))

section Forms
variable {c : Config} {n : Nat} {q : Bytes} {r r' : Reader} {s t : State} {v : Val} {saw : Bool}

theorem readEvalLoop_succ (turns : Nat) : readEvalLoop c n (turns + 1) r v saw = (evalForm c n r >>= fun x =>
    match x with
    | none => pure (v, saw)
    | some (lastResult, r) => readEvalLoop c n turns r lastResult true) := by
  unfold evalForm
  rw [readEvalLoop, bind_assoc]
  congr 1
  funext ⟨form, r₁⟩
  by_cases heof : form = mvEof
  · simp only [if_pos heof, pure_bind]
  · simp only [if_neg heof, bind_assoc, pure_bind]

theorem evalForm_end (h : (skipWsAndComments r).peek = none) : evalForm c n r = pure none := by
  have hread : mlRead c r = pure (mvEof, skipWsAndComments r) := by
    unfold mlRead readForm
    dsimp only
    rw [h]
  unfold evalForm
  rw [hread, pure_bind]
  rfl

/-- Where a turn comes to. -/
theorem evalForm_moves {x : Option (Val × Reader)} (hres : (evalForm c n r s).res = .ok x) :
    (x = none ∧ (skipWsAndComments r).peek = none) ∨ ∃ v r₁, x = some (v, r₁) ∧ r.Beyond r₁ := by
  unfold evalForm at hres
  cases hread : (mlRead c r s).res with
  | error y =>
    rw [bind_of_error hread] at hres
    cases hres
  | ok y =>
    obtain ⟨form, r₁⟩ := y
    rw [bind_of_ok hread] at hres
    by_cases heof : form = mvEof
    · simp only [if_pos heof] at hres
      cases hres
      exact .inl ⟨rfl, mlRead_eof hread heof⟩
    · simp only [if_neg heof] at hres
      have hrest : wp Mode.partly (do
          let sp ← mlGcSavepoint
          mlGcProtect c form
          let lastResult ← (mlEval c n form c.toplevelEnv).andThen (mlGcRestore sp)
          pure (some (lastResult, r₁)) : ML (Option (Val × Reader))) (mlRead c r s).state
            (fun x _ => ∃ v, x = some (v, r₁)) fun _ _ => True := by
        apply wp_bind
        apply wp_gets
        apply wp_seq (wp_true _ _)
        intro _ t _
        apply wp_seq (wp_true _ _)
        exact fun v u _ => wp_pure ⟨v, rfl⟩
      have hx := (hrest fun _ _ => id).2
      rw [hres] at hx
      obtain ⟨v, rfl⟩ := hx
      exact .inr ⟨v, r₁, rfl, (mlRead_moves hread).resolve_left fun hend => heof hend.1⟩

theorem evalForm_along (hdue : ∀ s l, c.collectDue (s.onLine l) = c.collectDue s)
    (hlen : r.rest.length ≤ r'.rest.length)
    (hset : Settled q (parse c.maxReadDepth r))
    (h : (skipWsAndComments r).Sees q → (skipWsAndComments r).Along q (skipWsAndComments r')) (hst : s.SameButLine t) :
    RelatedAt (fun _ => False) (fun a b u v => FormsAlong c.maxReadDepth q r a b ∧ u.SameButLine v) State.SameButLine
      (evalForm c n r) (evalForm c n r') s t := by
  have hlock : LockstepCall (fun _ => False) (fun _ => False) c c (· = ·) State.SameButLine := lockstep_line hdue
  have hread := (mlRead_along hdue hlen h hset s t hst).strict fun x hx htimeout => mlRead_ends (htimeout ▸ hx)
  have hknown : ∀ x, (mlRead c r s).res = .ok x → (x.1 = mvEof → (skipWsAndComments r).peek = none) ∧
      (x.1 ≠ mvEof → r.Beyond x.2) := by
    rintro ⟨v, r₁⟩ hres
    exact ⟨mlRead_eof hres, fun hv => (mlRead_moves hres).resolve_left fun hend => hv hend.1⟩
  apply (hread.knowing hknown).bind
  rintro ⟨_, r₁⟩ ⟨form, r₁'⟩ u v ⟨⟨heof, hbeyond⟩, hval, halong, hplace, huv⟩
  obtain rfl := hval
  by_cases hform : form = mvEof
  · simp only [if_pos hform]
    exact relatedAt_pure ⟨.none (heof hform), huv⟩
  · simp only [if_neg hform]
    apply (SimAt.relatedAt (lineless_gets (fun _ _ => rfl) u v huv)).bind
    rintro sp _ u v ⟨rfl, huv⟩
    apply (SimAt.relatedAt (lineless_mlGcProtect u v huv)).bind
    rintro _ _ u v ⟨-, huv⟩
    apply (SimAt.relatedAt (andThen_restore_lockstep hlock.toLockstep rfl
      (mlEval_lockstep hlock.toLockstepEval n form _) u v huv)).bind
    rintro w _ u v ⟨rfl, huv⟩
    exact relatedAt_pure ⟨.form (hbeyond hform) halong hplace, huv⟩

/-- The forms from `r` to `r'` are evaluated, one after another, from `s` to `s'`. -/
inductive Evaluated (c : Config) (n : Nat) : Reader → State → Reader → State → Prop
  | none {r : Reader} {s : State} : Evaluated c n r s r s
  | next {r r₁ r' : Reader} {s s' : State} {v : Val} : (evalForm c n r s).res = .ok (some (v, r₁)) →
      Evaluated c n r₁ (evalForm c n r s).state r' s' → Evaluated c n r s r' s'

/-- The loop stops at the first form that fails, and leaves what that form left. -/
theorem readEvalLoop_fails {s' : State} {x : Halt Status} (h : Evaluated c n r s r' s')
    (hx : (evalForm c n r' s').res = .error x)
    (turns : Nat) (hr : r.rest.length < turns) :
    (readEvalLoop c n turns r v saw s).res = .error x ∧ (readEvalLoop c n turns r v saw s).state =
      (evalForm c n r' s').state := by
  induction h generalizing turns v saw with
  | none =>
    obtain ⟨turns, rfl⟩ : ∃ k, turns = k + 1 := ⟨turns - 1, by omega⟩
    rw [readEvalLoop_succ, bind_of_error hx]
    exact ⟨rfl, rfl⟩
  | @next r r₁ r' s s' w hres _ ih =>
    obtain ⟨turns, rfl⟩ : ∃ k, turns = k + 1 := ⟨turns - 1, by omega⟩
    have hbeyond : r.Beyond r₁ := by
      rcases evalForm_moves hres with ⟨⟨⟩, -⟩ | ⟨_, _, ⟨⟩, hbeyond⟩
      exact hbeyond
    have hless := hbeyond.less
    rw [readEvalLoop_succ, bind_of_ok hres]
    exact ih hx turns (by omega)

/-- The runs end alike: with the same result, in states that differ in the line of the error alone. -/
abbrev RunsAlike {α : Type} (m m' : ML α) (s t : State) : Prop :=
  RelatedAt (fun _ => False) (fun a b u v => b = a ∧ u.SameButLine v) State.SameButLine m m' s t

/-- The loop reads the same text on other lines. -/
theorem readEvalLoop_shift (hdue : ∀ s l, c.collectDue (s.onLine l) = c.collectDue s) (turns turns' : Nat)
    (r r' : Reader) (v : Val)
    (saw : Bool) (s t : State) (hr : r.rest.length < turns) (hr' : r'.rest.length < turns')
    (hlen : r.rest.length ≤ r'.rest.length)
    (h : (skipWsAndComments r).Along [] (skipWsAndComments r')) (hst : s.SameButLine t) :
    RunsAlike (readEvalLoop c n turns r v saw) (readEvalLoop c n turns' r' v saw) s t := by
  induction turns generalizing turns' r r' v saw s t with
  | zero => omega
  | succ turns ih =>
    obtain ⟨turns', rfl⟩ : ∃ k, turns' = k + 1 := ⟨turns' - 1, by omega⟩
    rw [readEvalLoop_succ, readEvalLoop_succ]
    have hset : Settled [] (parse c.maxReadDepth r) := fun hq => absurd rfl hq
    apply (evalForm_along hdue hlen hset (fun _ => h) hst).bind
    rintro a b u w ⟨hforms, huw⟩
    cases hforms with
    | none => exact relatedAt_pure ⟨rfl, huw⟩
    | @form v r₁ r₁' hbeyond halong =>
      have hless := hbeyond.less
      have hrest : r₁'.rest = r₁.rest := by rw [halong.rest, List.append_nil]
      have hskip := halong.skip fun hq => absurd rfl hq
      have hshorter : r₁.rest.length < r'.rest.length := by omega
      apply ih turns' r₁ r₁' v true u w (by omega) _ (by rw [hrest]) hskip huw
      rw [hrest]
      omega

/-- The loop over a text and then over the next one, and the loop over both. -/
theorem readEvalLoop_append (hdue : ∀ s l, c.collectDue (s.onLine l) = c.collectDue s) (hq : q ≠ [])
    (hreads : ReadsOut c.maxReadDepth r) (hline : r.rest.getLast? = some (ch '\n')) (hdepth : r.depth = 0)
    (h : r.Along q r')
    (turns turns' turns₂ : Nat) (hr : r.rest.length < turns) (hr' : r'.rest.length < turns') (hq' : q.length < turns₂)
    (hst : s.SameButLine t) :
    RunsAlike (readEvalLoop c n turns r v saw >>= fun x => readEvalLoop c n turns₂ (start q) x.1 x.2)
      (readEvalLoop c n turns' r' v saw) s t := by
  induction hreads generalizing r' turns turns' v saw s t with
  | @done r r₁ hp =>
    obtain ⟨rfl, hend⟩ := parse_eq_none.1 hp
    obtain ⟨turns, rfl⟩ : ∃ k, turns = k + 1 := ⟨turns - 1, by omega⟩
    rw [readEvalLoop_succ, evalForm_end hend, pure_bind, pure_bind]
    apply readEvalLoop_shift hdue _ _ _ _ _ _ _ _ hq' hr' _ (along_start h hdepth hline hend) hst
    show q.length ≤ _
    rw [h.rest, List.length_append]
    exact Nat.le_add_left _ _
  | @form r r₁ d hp _ ih =>
    have htook := parse_eq_some.1 hp
    have hline₁ := htook.newline hline
    have hset : Settled q (parse c.maxReadDepth r) := by
      refine fun _ => ⟨_, r₁, hp, ?_⟩
      rintro hnil
      rw [hnil] at hline₁
      cases hline₁
    have hlen : r.rest.length ≤ r'.rest.length := by
      rw [h.rest, List.length_append]
      exact Nat.le_add_right _ _
    obtain ⟨turns, rfl⟩ : ∃ k, turns = k + 1 := ⟨turns - 1, by omega⟩
    obtain ⟨turns', rfl⟩ : ∃ k, turns' = k + 1 := ⟨turns' - 1, by omega⟩
    rw [readEvalLoop_succ, readEvalLoop_succ, bind_assoc]
    apply (evalForm_along hdue hlen hset h.skip hst).bind
    rintro a b u w ⟨hforms, huw⟩
    cases hforms with
    | none hend =>
      rw [parse_eq_none.2 ⟨rfl, hend⟩] at hp
      cases hp
    | @form v r₂ r₂' hbeyond halong hplace =>
      obtain ⟨y, hy⟩ := hplace hq
      rw [hp] at hy
      cases hy
      have hless := hbeyond.less
      have hrest := congrArg List.length halong.rest
      have hrest' := congrArg List.length h.rest
      rw [List.length_append] at hrest hrest'
      exact ih hline₁ (htook.1.depth.trans hdepth) halong turns turns' (by omega) (by omega) huw

end Forms

/-! ## Printing -/

/-- The bindings, the symbol table and the output are the same. -/
structure State.SameWorld (s t : State) : Prop where
  heap : t.heap = s.heap
  symtab : t.symtab = s.symtab
  output : t.output = s.output

section Printing
variable {c : Config} {s t u : State} {v : Val} {saw wantBytes : Bool}

theorem State.SameWorld.of_eq (h : s.SameWorld t) (hu : u = { t with
    gcProtect := u.gcProtect, gcProtectCap := u.gcProtectCap, printDepth := u.printDepth, lastError := u.lastError,
      allocs := u.allocs }) :
    s.SameWorld u := by
  rw [hu]
  exact ⟨h.heap, h.symtab, h.output⟩

/-- The run keeps the world of `s`, beside itself. -/
abbrev KeepsWorld {α : Type} (s : State) (m : ML α) (t : State) : Prop :=
  RelatedAt (fun _ => False) (fun a b u w => a = b ∧ u = w ∧ s.SameWorld u) (fun u w => u = w ∧ s.SameWorld u) m m t t

theorem keepsWorld_of_wp {α : Type} {m : ML α} (h : s.SameWorld t)
    (hw : wp Mode.fully m t (fun _ u => t.SameWorld u) fun _ u => t.SameWorld u) :
    KeepsWorld s m t := by
  have hworld : ∀ {u}, t.SameWorld u → s.SameWorld u :=
    fun hu => ⟨hu.heap.trans h.heap, hu.symtab.trans h.symtab, hu.output.trans h.output⟩
  apply (relatedAt_self hw).mono
  · exact fun _ _ _ _ h => ⟨h.1, h.2.1, hworld h.2.2⟩
  · exact fun _ _ h => ⟨h.1, hworld h.2.choose_spec⟩

theorem rawAllocOrFail_world {size : Nat} (h : s.SameWorld t) : KeepsWorld s (rawAllocOrFail c size) t :=
  keepsWorld_of_wp h (wp_mono rawAllocOrFail_wp (fun _ u hu => .of_eq ⟨rfl, rfl, rfl⟩ (by rw [hu]))
    fun _ u hu => .of_eq ⟨rfl, rfl, rfl⟩ (by rw [hu.2.2]))

/-- The printer only reads, and its sink allocates. -/
theorem printBufSink_world (s : State) :
    Sink.Alike (fun _ => False) Eq (fun t u => t = u ∧ s.SameWorld t) (printBufSink c) (printBufSink c) where
  heap h := by rw [h.1]
  symtab h := by rw [h.1]
  printDepth h := by rw [h.1]
  setDepth _ h := ⟨by rw [h.1], h.2.of_eq rfl⟩
  setError _ h := ⟨by rw [h.1], h.2.of_eq rfl⟩
  emit bytes h hV := by
    obtain ⟨rfl, ht⟩ := h
    subst hV
    apply keepsWorld_of_wp ht
    exact wp_mono printBufSink_wp (fun _ u hu => .of_eq ⟨rfl, rfl, rfl⟩ (by rw [hu.2])) fun _ u hu =>
      .of_eq ⟨rfl, rfl, rfl⟩ (by rw [hu.2])

theorem printResult_world (s : State) : KeepsWorld s (printResult c v saw wantBytes) s := by
  have hself : s.SameWorld s := ⟨rfl, rfl, rfl⟩
  apply RelatedAt.ite
  · exact fun _ => relatedAt_pure ⟨rfl, rfl, hself⟩
  · intro _
    apply relatedAt_gets
    have hprotect : KeepsWorld s (mlGcProtect c v) s :=
      keepsWorld_of_wp hself (wp_mono mlGcProtect_wp (fun _ u hu => .of_eq ⟨rfl, rfl, rfl⟩ (by rw [hu]))
        fun _ u hu => .of_eq ⟨rfl, rfl, rfl⟩ (by rw [hu.2.2]))
    apply hprotect.bind
    rintro _ _ t _ ⟨-, rfl, ht⟩
    have hprint : KeepsWorld s (mlPrintToAlloc c v true) t := by
      apply (mlPrint_alike (printBufSink_world s) ⟨rfl, ht⟩ rfl).bind
      rintro pb _ u _ ⟨rfl, rfl, hu⟩
      apply RelatedAt.ite
      · intro _
        apply (rawAllocOrFail_world hu).bind
        rintro _ _ w _ ⟨-, rfl, hw⟩
        exact relatedAt_pure ⟨rfl, rfl, hw⟩
      · exact fun _ => relatedAt_pure ⟨rfl, rfl, hu⟩
    have hrestored : KeepsWorld s ((mlPrintToAlloc c v true).andThen (mlGcRestore s.gcProtect.length)) t := by
      apply hprint.andThen
      · rintro _ _ u _ ⟨rfl, rfl, hu⟩
        exact ⟨rfl, rfl, hu.of_eq rfl⟩
      · rintro u _ ⟨rfl, hu⟩
        exact ⟨rfl, hu.of_eq rfl⟩
    apply hrestored.bind
    rintro buf _ u _ ⟨rfl, rfl, hu⟩
    exact relatedAt_pure ⟨rfl, rfl, hu⟩

end Printing

/-! ## Calls -/

/-- The forms of a source, and the last result, with whether there was a form. -/
def evalForms (c : Config) (n : Nat) (source : Bytes) : ML (Val × Bool) := do
  modify mlClearError
  readEvalLoop c n (source.length + 1) (start source) mvUndef false

/-- `microlisp_eval` on one source for its effects, and then on another one. -/
def evalPieces (c : Config) (n : Nat) (first second : Bytes) (wantBytes : Bool) : ML (Option Bytes) := do
  let _ ← microlispEval c n (some first) first.length false
  microlispEval c n (some second) second.length wantBytes

section Calls
variable {c : Config} {n : Nat} {A B source : Bytes} {s t : State} {wantBytes : Bool}

theorem microlispEval_forms : microlispEval c n (some source) source.length wantBytes =
    (evalForms c n source >>= fun x => printResult c x.1 x.2 wantBytes) := by
  unfold microlispEval evalForms
  simp only [Option.isNone_some, Bool.false_and, Option.getD_some, List.take_length, bind_assoc]
  rfl

theorem printResult_none {v : Val} {saw : Bool} : printResult c v saw false = pure none := by
  simp [printResult]

theorem evalPieces_forms : evalPieces c n A B wantBytes =
    (evalForms c n A >>= fun _ => evalForms c n B >>= fun x => printResult c x.1 x.2 wantBytes) := by
  unfold evalPieces
  simp only [microlispEval_forms, printResult_none, bind_assoc, pure_bind]

/-- Nothing is recorded after forms that do not fail. -/
theorem evalForms_clears {x : Val × Bool} (hres : (evalForms c n source s).res = .ok x) :
    mlClearError (evalForms c n source s).state = (evalForms c n source s).state := by
  unfold evalForms at hres ⊢
  rw [modify_bind_run] at hres ⊢
  have hat : (readEvalLoop c n (source.length + 1) (start source) mvUndef false (mlClearError s)).state.lastError
      = ⟨[], 0, 0⟩ :=
    (ok_of_triple (readEvalLoop_keeps (S := anyStatus) (fun _ => trivial) n _ _ _ _) .refl hres).lastError
  rw [mlClearError, ← hat]

/-- The forms of one source, and then those of the next one, are the forms of both together. -/
theorem evalForms_append (hdue : ∀ s l, c.collectDue (s.onLine l) = c.collectDue s)
    (hline : A.getLast? = some (ch '\n'))
    (hreads : ReadsOut c.maxReadDepth (start A)) (s : State) :
    RunsAlike (evalForms c n A >>= fun x => readEvalLoop c n (B.length + 1) (start B) x.1 x.2)
      (evalForms c n (A ++ B)) s s := by
  by_cases hB : B = []
  · subst hB
    have hend : ∀ x : Val × Bool, readEvalLoop c n ([] : Bytes).length.succ (start []) x.1 x.2 = pure x := by
      intro x
      rw [Nat.succ_eq_add_one, readEvalLoop_succ, evalForm_end rfl, pure_bind]
    have hboth : RunsAlike (evalForms c n A >>= fun x => readEvalLoop c n ([] : Bytes).length.succ (start []) x.1 x.2)
        (evalForms c n A >>= pure) s s := by
      apply relatedAt_same .refl
      intro x s
      rw [hend x]
      exact relatedAt_pure ⟨rfl, .refl s⟩
    rw [bind_pure] at hboth
    rw [List.append_nil]
    exact hboth
  · unfold evalForms
    rw [bind_assoc]
    apply relatedAt_modify
    have halong : (start A).Along B (start (A ++ B)) := ⟨rfl, rfl, rfl⟩
    exact readEvalLoop_append hdue hB hreads hline rfl halong _ _ _ (Nat.lt_succ_self A.length)
      (Nat.lt_succ_self (A ++ B).length)
      (Nat.lt_succ_self B.length) (.refl _)

/-- Where there is a form, or none because of an error, it does not matter what came before. -/
theorem readEvalLoop_last (hB : ¬ Trailing B) (turns : Nat) (v w : Val) (saw saw' : Bool) (s : State) :
    readEvalLoop c n (turns + 1) (start B) v saw s = readEvalLoop c n (turns + 1) (start B) w saw' s := by
  rw [readEvalLoop_succ, readEvalLoop_succ]
  apply bind_run_congr
  intro x hres
  rcases evalForm_moves hres with ⟨-, hend⟩ | ⟨_, _, rfl, -⟩
  · exact absurd (trailing_of_skip hend) hB
  · rfl

theorem readEvalLoop_trailing (hB : Trailing B) (v : Val) (saw : Bool) (turns : Nat) :
    readEvalLoop c n (turns + 1) (start B) v saw = pure (v, saw) := by
  have hend : (skipWsAndComments (start B)).peek = none := by
    rw [skip_trailing hB, peek_eq_none, rest_eat (List.append_nil _).symm]
  rw [readEvalLoop_succ, evalForm_end hend, pure_bind]

end Calls

/-- The second run ends like the first one: with the same result, and a state that differs in the line of the
recorded error alone. -/
def EndsAlike {α : Type} (r r' : Run State Status Event α) : Prop := r'.res = r.res ∧ ∀ o, r.Ends o →
    r.state.SameButLine r'.state

theorem endsAlike {α : Type} {m m' : ML α} {s t : State} (h : RunsAlike m m' s t) : EndsAlike (m s) (m' t) := by
  unfold RunsAlike RelatedAt at h
  cases hr : (m s).res with
  | ok a =>
    cases hr' : (m' t).res with
    | ok b =>
      simp only [hr, hr'] at h
      exact ⟨by rw [hr, hr', h.1], fun _ _ => h.2⟩
    | error y => simp only [hr, hr'] at h
  | error x =>
    cases hr' : (m' t).res with
    | ok b => simp only [hr, hr'] at h
    | error y =>
      simp only [hr, hr', false_or] at h
      refine ⟨by rw [hr, hr', h.1], fun o ho => ?_⟩
      unfold Run.Ends at ho
      cases o with
      | ok a =>
        rw [hr] at ho
        cases ho
      | error e =>
        rw [hr] at ho
        cases ho
        exact h.2 e rfl

section Pieces
variable {c : Config} {n : Nat} {A B : Bytes} {s t : State} {wantBytes : Bool}

/-- One call on both sources, and the loop over one of them and then over the other. -/
theorem microlispEval_append (hdue : ∀ s l, c.collectDue (s.onLine l) = c.collectDue s)
    (hline : A.getLast? = some (ch '\n'))
    (hreads : ReadsOut c.maxReadDepth (start A)) (s : State) :
    EndsAlike ((evalForms c n A >>= fun x => readEvalLoop c n (B.length + 1) (start B) x.1 x.2 >>= fun y =>
      printResult c y.1 y.2 wantBytes) s) (microlispEval c n (some (A ++ B)) (A ++ B).length wantBytes s) := by
  have hlock : LockstepCall (fun _ => False) (fun _ => False) c c (· = ·) State.SameButLine := lockstep_line hdue
  rw [microlispEval_forms, ← bind_assoc]
  apply endsAlike
  apply (evalForms_append hdue hline hreads s).bind
  rintro x _ u w ⟨rfl, huw⟩
  apply (SimAt.relatedAt (printResult_lockstep hlock.toLockstepEval u w huw)).mono
  · exact fun _ _ _ _ h => ⟨h.1.symm, h.2⟩
  · exact fun _ _ h => h

/-- The second call finds the state as the first one left it. -/
theorem evalPieces_run : evalPieces c n A B wantBytes s = (evalForms c n A >>= fun _ =>
    readEvalLoop c n (B.length + 1) (start B) mvUndef false >>= fun y => printResult c y.1 y.2 wantBytes) s := by
  rw [evalPieces_forms]
  apply bind_run_congr
  intro x hres
  show ((modify mlClearError >>= fun _ => readEvalLoop c n (B.length + 1) (start B) mvUndef false) >>= fun y =>
    printResult c y.1 y.2 wantBytes) _ = _
  rw [bind_assoc, modify_bind_run, evalForms_clears hres]

theorem evalPieces_trailing (hB : Trailing B) :
    evalPieces c n A B wantBytes s = (evalForms c n A >>= fun _ => pure none) s := by
  rw [evalPieces_run]
  apply bind_run_congr
  intro x _
  rw [readEvalLoop_trailing hB, pure_bind]
  rfl

section Both
variable (hdue : ∀ s l, c.collectDue (s.onLine l) = c.collectDue s) (hline : A.getLast? = some (ch '\n'))
  (hreads : ReadsOut c.maxReadDepth (start A))
include hdue hline hreads

theorem evalPieces_alike (hB : ¬ Trailing B) :
    EndsAlike (evalPieces c n A B wantBytes s) (microlispEval c n (some (A ++ B)) (A ++ B).length wantBytes s) := by
  have hpieces : evalPieces c n A B wantBytes s = (evalForms c n A >>= fun x =>
      readEvalLoop c n (B.length + 1) (start B) x.1 x.2 >>= fun y => printResult c y.1 y.2 wantBytes) s := by
    rw [evalPieces_run]
    apply bind_run_congr
    intro x _
    simp only [Bind.bind, Prog.bind, readEvalLoop_last hB B.length mvUndef x.1 false x.2]
  rw [hpieces]
  exact microlispEval_append hdue hline hreads s

/-- A failure of the first source is the end of both. -/
theorem microlispEval_fails {e : Status} (he : (evalForms c n A s).res = .error (.err e)) :
    (microlispEval c n (some (A ++ B)) (A ++ B).length wantBytes s).res = .error (.err e) ∧
      (evalForms c n A s).state.SameButLine (microlispEval c n (some (A ++ B)) (A ++ B).length wantBytes s).state := by
  have hwhole : EndsAlike _ (microlispEval c n (some (A ++ B)) (A ++ B).length wantBytes s) :=
    microlispEval_append hdue hline hreads s
  rw [bind_of_error he] at hwhole
  exact ⟨hwhole.1, hwhole.2 (.error e) rfl⟩

theorem evalPieces_fails (hB : Trailing B) {x : Halt Status} (hx : (evalPieces c n A B wantBytes s).res = .error x) :
    EndsAlike (evalPieces c n A B wantBytes s) (microlispEval c n (some (A ++ B)) (A ++ B).length wantBytes s) := by
  rw [evalPieces_trailing hB] at hx ⊢
  cases hA : (evalForms c n A s).res with
  | ok y =>
    rw [bind_of_ok hA] at hx
    cases hx
  | error y =>
    have hwhole : EndsAlike _ (microlispEval c n (some (A ++ B)) (A ++ B).length wantBytes s) :=
      microlispEval_append hdue hline hreads s
    rw [bind_of_error hA] at hwhole ⊢
    exact hwhole

theorem evalPieces_prints (hB : Trailing B) {out : Option Bytes}
    (hout : (evalPieces c n A B wantBytes s).res = .ok out) :
    out = none ∧ ∃ v saw, (evalForms c n A s).res = .ok (v, saw) ∧
      (microlispEval c n (some (A ++ B)) (A ++ B).length wantBytes s).res
        = (printResult c v saw wantBytes (evalPieces c n A B wantBytes s).state).res ∧
      ∀ o, (microlispEval c n (some (A ++ B)) (A ++ B).length wantBytes s).Ends o →
        (evalPieces c n A B wantBytes s).state.SameWorld
          (microlispEval c n (some (A ++ B)) (A ++ B).length wantBytes s).state := by
  rw [evalPieces_trailing hB] at hout ⊢
  cases hA : (evalForms c n A s).res with
  | error y =>
    rw [bind_of_error hA] at hout
    cases hout
  | ok y =>
    obtain ⟨v, saw⟩ := y
    have hwhole : EndsAlike _ (microlispEval c n (some (A ++ B)) (A ++ B).length wantBytes s) :=
      microlispEval_append hdue hline hreads s
    rw [bind_of_ok hA] at hout hwhole ⊢
    simp only [readEvalLoop_trailing hB, pure_bind] at hwhole
    cases hout
    refine ⟨rfl, v, saw, rfl, hwhole.1, fun o ho => ?_⟩
    have hprinted : (printResult c v saw wantBytes (evalForms c n A s).state).Ends o := hwhole.1.symm.trans ho
    have hworld : (evalForms c n A s).state.SameWorld
        (printResult c v saw wantBytes (evalForms c n A s).state).state := by
      apply ((printResult_world (evalForms c n A s).state).mono _ _).ends_left hprinted
      · exact fun _ _ _ _ h => h.2.2
      · exact fun _ _ h => h.2
    obtain ⟨l, hl⟩ := hwhole.2 o hprinted
    rw [hl]
    exact hworld.of_eq rfl

end Both

end Pieces

/-- A source that ends with a newline and reads to its end is evaluated, and then another one, as both together
would be in one call. Where the second one has no form, the one call prints the last result of the first. A form of
the first source that fails is the last one, and nothing is undone that was done before it or by it. -/
theorem microlispEval_pieces (c : Config) (hdue : ∀ s l, c.collectDue (s.onLine l) = c.collectDue s)
    (n : Nat) (s : State)
    (A B : Bytes) (wantBytes : Bool) (hline : A.getLast? = some (ch '\n'))
    (hreads : ReadsOut c.maxReadDepth (start A)) :
    (¬ Trailing B → EndsAlike (evalPieces c n A B wantBytes s)
      (microlispEval c n (some (A ++ B)) (A ++ B).length wantBytes s)) ∧
    (Trailing B →
      (∀ x, (evalPieces c n A B wantBytes s).res = .error x →
        EndsAlike (evalPieces c n A B wantBytes s) (microlispEval c n (some (A ++ B)) (A ++ B).length wantBytes s)) ∧
      ∀ out, (evalPieces c n A B wantBytes s).res = .ok out → out = none ∧
        ∃ v saw, (evalForms c n A s).res = .ok (v, saw) ∧
        (microlispEval c n (some (A ++ B)) (A ++ B).length wantBytes s).res
          = (printResult c v saw wantBytes (evalPieces c n A B wantBytes s).state).res ∧
        ∀ o, (microlispEval c n (some (A ++ B)) (A ++ B).length wantBytes s).Ends o →
          (evalPieces c n A B wantBytes s).state.SameWorld
            (microlispEval c n (some (A ++ B)) (A ++ B).length wantBytes s).state) ∧
    ∀ r' s' e, Evaluated c n (start A) (mlClearError s) r' s' → (evalForm c n r' s').res = .error (.err e) →
      (microlispEval c n (some (A ++ B)) (A ++ B).length wantBytes s).res = .error (.err e) ∧
        (evalForm c n r' s').state.SameButLine
          (microlispEval c n (some (A ++ B)) (A ++ B).length wantBytes s).state := by
  refine ⟨evalPieces_alike hdue hline hreads, fun hB => ⟨fun x => evalPieces_fails hdue hline hreads hB,
    fun out => evalPieces_prints hdue hline hreads hB⟩, fun r' s' e hforms he => ?_⟩
  obtain ⟨hres, hstate⟩ := readEvalLoop_fails hforms he (A.length + 1) (Nat.lt_succ_self _)
  have hA : (evalForms c n A s).res = .error (.err e) ∧ (evalForms c n A s).state = (evalForm c n r' s').state := by
    unfold evalForms
    rw [modify_bind_run]
    exact ⟨hres, hstate⟩
  rw [← hA.2]
  exact microlispEval_fails hdue hline hreads hA.1

/-! ## A definition, then what it defines -/

/-- A definition on a line of its own. -/
def defineLine : Bytes := ascii "(define x 1)\n"

theorem defineLine_reads : ReadsOut 256 (start defineLine) := .form rfl (.done rfl)

theorem microlispEval_pieces_define :
    EndsAlike (evalPieces .created 20 defineLine (ascii "x") true .created)
      (microlispEval .created 20 (some (defineLine ++ ascii "x")) (defineLine ++ ascii "x").length true .created) := by
  have hx : ¬ Trailing (ascii "x") := fun h => by
    have hskip := skip_trailing (r := start (ascii "x")) h
    have hpos : (skipWsAndComments (start (ascii "x"))).pos = (start (ascii "x")).pos := by decide +kernel
    rw [hskip] at hpos
    exact absurd hpos (by decide +kernel)
  exact (microlispEval_pieces .created (fun _ _ => rfl) 20 .created defineLine (ascii "x") true
    (by decide) defineLine_reads).1 hx

-- The one call may fail where neither of the two does: when it prints the last result of the first.
example : (evalPieces { Config.created with maxPrintDepth := 1 } 20 (ascii "'((a))\n")
    [] true .created).res = .ok none ∧
    (microlispEval { Config.created with maxPrintDepth := 1 } 20 (some (ascii "'((a))\n")) 7 true .created).res
      = .error (.err .errPrintDepth) := by decide +kernel

end Microlisp
