import Microlisp.Language.Reading
import Microlisp.Reading.Read
import Microlisp.Transcript
/-!
# Programs

A call of `microlisp_eval` reads the forms of its source, evaluates them in the top-level frame and
writes the last value. With memory for every request and without collections, that is what the
language says, in a world that the calls before have left.
-/
namespace Microlisp

namespace Language

open Prog

/-- The forms of a text, in order, up to its end or to what cannot be read. -/
def forms (limit : Nat) : Nat → Reader → List Datum × Option Status
  | 0, _ => ([], none)
  | n + 1, r =>
    match parse limit r with
    | .ok (some d, r') => (d :: (forms limit n r').1, (forms limit n r').2)
    | .error (.error e _) => ([], some e)
    | _ => ([], none)

/-- What a source says: its forms, and the error that ends it, if one does. -/
def program (limit : Nat) (source : Bytes) : List Datum × Option Status :=
  forms limit (source.length + 1) (.start source)

/-- What a request says, unless it has a length and no source. -/
def asked (limit : Nat) (q : Request) : Option (List Datum × Option Status) :=
  if q.source.isNone && decide (q.sourceLen ≠ 0) then none else some
    (program limit ((q.source.getD []).take q.sourceLen))

/-- What a request is answered. -/
def respond (limit n : Nat) (q : Request) : Sem (Option Bytes) :=
  match asked limit q with
  | none => fail .errInvalidArg
  | some said => answer n said.2 said.1 q.wantBytes

end Language

open Prog Microlisp.Language

/-! ## Calls do what the language says -/

/-- The state stands for the world, between two calls. -/
structure State.Speaks (c : Config) (fs : List Nat) (w : World) (s : State) : Prop where
  depicts : s.Depicts fs w
  rests : s.Rests c
  toplevel : s.heap.Chain fs toplevel c.toplevelEnv

/-- What ends a run early: a limit, or the count that bounds it. -/
def early (x : Halt Status) : Prop := beyond x ∨ noOutcomeOrDepth x

/-- From a state between two forms, a program does what the language says. -/
abbrev Follows {α β : Type} (c : Config) (W : List Nat → α → β → State → Prop) (m : Sem α) (n : ML β)
    (fs : List Nat) (w : World)
    (s : State) : Prop :=
  Corresponds (fun x => x = .stuck) early (fun p _ s p' _ s' => Grown p s p' s') (fun p w s => s.Speaks c p w)
    (fun p a b _ s => W p a b s) m n fs w s

section Follows
variable {c : Config} {α β : Type} {W : List Nat → α → β → State → Prop} {m : Sem α} {n : ML β} {fs : List Nat}
    {w : World} {s : State}

/-- Where the state is left at rest. -/
theorem follows_of {br : Halt Status → Prop}
    (h : Corresponds (fun x => x = .stuck) br (fun p _ s p' _ s' => Onward p s p' s') (fun p w s => s.Depicts p w)
      (fun p a b _ s => W p a b s) m n fs w s)
    (hbr : ∀ x, br x → early x) (hrests : s.Rests c → ∀ o, (n s).Ends o → (n s).state.Rests c) :
    Follows c W m n fs w s := by
  apply Corresponds.carry h
  · exact State.Speaks.depicts
  · exact hbr
  · intro fs' o hI ho hon hdepicts
    exact ⟨hon.grown, hdepicts, hrests hI.rests o ho, hI.toplevel.grown hon.grown⟩

theorem ends_rests {P : α → State → Prop} {m : ML α} (h : wp (readMode False) m s (fun a u => u.Rests c ∧ P a u)
    fun _ u => u.Rests c)
    {o : Except Status α} (ho : (m s).Ends o) : (m s).state.Rests c := by
  have hk := (h fun _ _ => id).2
  unfold Run.Ends at ho
  rw [ho] at hk
  cases o with
  | ok a => exact hk.1
  | error e => exact hk

end Follows

/-! ## Evaluations -/

section Evaluations
variable {c : Config} (hstd : c.Standard) (hc : ∀ n size, c.alloc n size = true) (hd : ∀ s, c.collectDue s = false)
    {fs : List Nat}
  {w : World} {s : State} {d : Datum} {v : Val}
include hstd hc hd

/-- The evaluator, from one level of derivations on. -/
theorem mlEval_follows {n k : Nat} (hk : derivationHeight n ≤ k) (hv : s.Form d v) :
    Follows c State.Stands (eval k d toplevel) (mlEval c n v c.toplevelEnv) fs w s := by
  apply Corresponds.given
  intro hI
  have hnames : c.names = Config.created.names := by
    rw [hstd]
    rfl
  have htells : Tells State.Stands (eval k d toplevel) (refEval c k v c.toplevelEnv) fs w s :=
    eval_tells hc hd (prims_tell hc hd) hnames k fs w s d v toplevel c.toplevelEnv hv hI.toplevel
  have hsim : SimAt noOutcomeOrDepth (fun _ => False) (AgreesAt s.evalDepth) (mlEval c n v c.toplevelEnv)
      (refEval c k v c.toplevelEnv) s s :=
    mlEval_sound hc hd n k hk v c.toplevelEnv s s ⟨⟨rfl, rfl, rfl, rfl, rfl, rfl, rfl⟩, rfl⟩
  have hquiet : ∀ {u u' : State}, AgreesAt s.evalDepth u u' → Unaltered u' u := fun h =>
    ⟨h.1.heap, h.1.symtab, h.1.output, h.1.printDepth, h.1.equalDepth⟩
  apply follows_of (Corresponds.simulated htells hsim id _ _) fun _ => id
  · intro hrests o ho
    exact ends_rests (mlEval_calm hd n hrests hv.valOk) ho
  · intro fs' u u' hu hon hdepicts
    exact ⟨hon.quiet (hquiet hu), hdepicts.quiet (hquiet hu)⟩
  · intro fs' x y u u' hu hx
    unfold State.Stands
    rw [hu.1.heap, hu.1.symtab]
    exact hx

omit hstd hd in
/-- A value is pushed, which the language does not see. -/
theorem mlGcProtect_speaks (hI : s.Speaks c fs w) (hv : s.heap.ValOk v) :
    wp Mode.fully (mlGcProtect c v) s (fun _ t => Unaltered s t ∧ t.Rests c) fun _ _ => False := by
  have hshape : wp (Mode.noting fun _ => True) (mlGcProtect c v) s _ _ := mlGcProtect_wp
  apply wp_mono (wp_and hshape (hI.rests.protect (M := Mode.fully) hv))
  · rintro _ t ⟨ht, hrests, -⟩
    rw [ht] at hrests ⊢
    exact ⟨⟨rfl, rfl, rfl, rfl, rfl⟩, hrests⟩
  · rintro _ _ ⟨⟨-, ⟨n, size, hrefused⟩, -⟩, -⟩
    rw [hc] at hrefused
    cases hrefused

omit hstd hc hd in
theorem State.Speaks.quiet {t : State} (hI : s.Speaks c fs w) (hq : Unaltered s t) (ht : t.Rests c) : t.Speaks c fs w :=
  ⟨hI.depicts.quiet hq, ht, hq.heap ▸ hI.toplevel⟩

omit hstd hc hd in
theorem Unaltered.grown {t : State} (hq : Unaltered s t) : Grown fs s fs t := (Onward.refl.quiet hq).grown

omit hc in
/-- A form has been read, or the end of the text, or there is an error to report. -/
theorem mlRead_follows {α β : Type} {U : List Nat → α → β → State → Prop} {r : Reader} {l : Sem α}
    {g : Val × Reader → ML β}
    (hform : ∀ d r', parse c.maxReadDepth r = .ok (some d, r') → ∀ v s', Grown fs s fs s' → s'.Form d v →
    Follows c U l (g (v, r')) fs w s')
    (hend : ∀ r', parse c.maxReadDepth r = .ok (none, r') → ∀ s', Grown fs s fs s' →
    Follows c U l (g (mvEof, r')) fs w s')
    (hfault : ∀ e record, parse c.maxReadDepth r = .error (.error e record) → l = fail e) :
    Follows c U l (mlRead c r >>= g) fs w s := by
  apply Corresponds.given
  intro hI
  have hspeaks : ∀ {o : Except Status (Val × Reader)}, (mlRead c r s).Ends o →
      Grown fs s fs (mlRead c r s).state ∧ (mlRead c r s).state.Speaks c fs w := by
    intro o ho
    obtain ⟨hgrown, hdepicts⟩ := mlRead_grown hd hI.depicts ho
    exact ⟨hgrown, hdepicts, ends_rests (mlRead_calm hstd hI.rests) ho, hI.toplevel.grown hgrown⟩
  rcases mlRead_cases (hI.rests.ready hstd) r with ⟨v, r', y, hres, hparse, hy, -⟩ | ⟨e, hres, he⟩
  · obtain ⟨hgrown, hI'⟩ := hspeaks (o := .ok (v, r')) hres
    have hread : Follows c (fun fs' _ x t => fs' = fs ∧ x = (v, r') ∧ t = (mlRead c r s).state)
        (pure () : Sem Unit) (mlRead c r) fs w s := by
      intro _
      simp only [hres]
      exact ⟨fs, hgrown, hI', rfl, rfl, trivial⟩
    apply Corresponds.unseen (fun h h' => h.trans h') hread
    rintro _ _ _ - ⟨rfl, rfl, rfl⟩
    cases y with
    | none =>
      obtain rfl : v = mvEof := hy
      exact hend r' hparse _ hgrown
    | some d =>
      have hd : (mlRead c r s).state.Form d v := Heap.Shows.mono hy fun _ _ => trivial
      exact hform d r' hparse v _ hgrown hd
  · have hright : (mlRead c r >>= g) s = ⟨.error (.err e), (mlRead c r s).state, (mlRead c r s).trace⟩ :=
      bind_of_error hres
    rcases he with rfl | hparse
    · apply Corresponds.of_right (by rw [hright])
      exact .inl ⟨_, rfl, rfl⟩
    · rw [hfault e _ hparse]
      apply Corresponds.error rfl (by rw [hright])
      intro _
      refine .inr (.inr ⟨rfl, fun _ _ => ?_⟩)
      rw [hright]
      obtain ⟨hgrown, hI'⟩ := hspeaks (o := .error e) hres
      exact ⟨fs, hgrown, hI'⟩

/-- The loop over the forms of a source. -/
theorem readEvalLoop_follows {n k : Nat} (hk : derivationHeight n ≤ k) (turns : Nat) (r : Reader)
    {x : Value} {saw : Bool}
    (hx : s.Stands fs x v) (hsaw : saw = false → x = .undef) :
    Follows c (fun fs x y s => s.Stands fs x y.1 ∧ (y.2 = false → x = .undef))
      (runForms k (forms c.maxReadDepth turns r).2 (forms c.maxReadDepth turns r).1 x)
        (readEvalLoop c n turns r v saw) fs w s := by
  induction turns generalizing r x v saw fs w s with
  | zero => exact .of_right rfl (.inr (.inl (.inr rfl)))
  | succ turns ih =>
    unfold readEvalLoop forms
    apply mlRead_follows hstd hd
    · intro d r' hparse form s' hgrown hform
      simp only [hparse, if_neg hform.ne_eof]
      apply Corresponds.given
      intro hI
      apply Corresponds.run gets_bind_run
      have hprotect : Follows c (fun _ _ _ t => Unaltered s' t) (pure () : Sem Unit) (mlGcProtect c form) fs w s' := by
        apply Corresponds.of_fully rfl (F := fun _ _ => False) _ fun _ _ h => h.elim
        intro hI
        apply wp_mono (mlGcProtect_speaks hc hI hform.valOk) _ fun _ _ h => h
        exact fun _ t ht => ⟨fs, ht.1.grown, hI.quiet ht.1 ht.2, ht.1⟩
      apply Corresponds.unseen (fun h h' => h.trans h') hprotect
      intro fs₁ _ t hgrown₁ hq
      have hform' : t.Form d form := by
        unfold State.Form State.Shows
        rw [hq.heap, hq.symtab]
        exact hform
      have heval : Follows c State.Stands (eval k d toplevel)
          ((mlEval c n form c.toplevelEnv).andThen (mlGcRestore s'.gcProtect.length)) fs₁ w t := by
        apply (mlEval_follows hstd hc hd hk hform').andThen
        · intro fs₂ _ u hgrown₂ hI₂
          have hrestored : Unaltered u (mlGcRestore s'.gcProtect.length u) := ⟨rfl, rfl, rfl, rfl, rfl⟩
          exact ⟨hgrown₂.trans hrestored.grown, hI₂.quiet hrestored (hI₂.rests.restore _)⟩
        · exact fun _ _ _ _ _ h => h
      apply Corresponds.bind (fun h h' => h.trans h') heval
      intro fs₂ y result w' u _ hy
      exact ih r' hy (fun h => by cases h)
    · intro r' hparse s' hgrown
      simp only [hparse]
      intro hI
      exact ⟨fs, Unaltered.grown ⟨rfl, rfl, rfl, rfl, rfl⟩, hI, hx.grown hgrown, hsaw⟩
    · intro e record hparse
      simp only [hparse]
      rfl

/-! ## Answers -/

omit hstd hc hd in
theorem Heap.Stands.undef_iff {h : Heap} {names : List Bytes} {x : Value} (hv : h.Stands names fs x v) :
    v = mvUndef ↔ x = .undef := by
  cases x with
  | undef => exact ⟨fun _ => rfl, fun _ => hv⟩
  | nil =>
    cases hv
    exact ⟨nofun, nofun⟩
  | fix i =>
    obtain ⟨-, rfl⟩ := hv
    exact ⟨nofun, nofun⟩
  | bool b =>
    cases hv
    cases b <;> exact ⟨nofun, nofun⟩
  | sym name =>
    obtain ⟨i, rfl, -⟩ := hv
    exact ⟨nofun, nofun⟩
  | _ =>
    obtain ⟨a, o, rfl, -⟩ := hv.obj rfl
    exact ⟨nofun, nofun⟩

omit hstd hc hd in
theorem Heap.Stands.valOk {h : Heap} {names : List Bytes} {x : Value} (hv : h.Stands names fs x v) : h.ValOk v := by
  cases x with
  | fix i =>
    have hd : h.Shows names (fun _ => True) (.fix i) v := hv
    exact hd.valOk
  | sym name =>
    obtain ⟨i, rfl, -⟩ := hv
    trivial
  | bool b =>
    cases hv
    cases b <;> trivial
  | undef =>
    cases hv
    trivial
  | nil =>
    cases hv
    trivial
  | _ =>
    obtain ⟨a, o, rfl, ho, henv⟩ := hv.obj rfl
    exact ⟨o, ho, henv⟩

omit hstd hc hd in
/-- Printing changes nothing that a later call depends on. -/
theorem mlPrintToAlloc_speaks {x : Value} (hI : s.Speaks c fs w) (hv : s.Stands fs x v) :
    wp Mode.fully (mlPrintToAlloc c v true) s (fun bytes t => bytes = x.text true ∧ Unaltered s t ∧ t.Rests c)
      fun e _ => e.isLimit = true := by
  have hkeeps : wp (Mode.noting _) (mlPrintToAlloc c v true) s (fun _ t => s.At c [] t) (Fails c anyStatus s []) :=
    mlPrintToAlloc_keeps (fun _ _ => trivial) s .refl
  apply wp_mono (wp_and hkeeps (mlPrintToAlloc_stands hI.depicts hv)) _ fun _ _ h => h.2
  rintro bytes t ⟨hat, hbytes, hq⟩
  have hwf : t.WellFormed c := by
    apply hI.rests.wf.of_eq hq.heap
    · rw [hat.protect, List.append_nil]
      exact fun _ h => h
    · rw [hat.pending]
      exact fun _ h => h
  have hnames : t.Numbers (specialForms.map ascii) := by
    unfold State.Numbers
    rw [hq.symtab]
    exact hI.rests.names
  exact ⟨hbytes, hq, hwf, hat.pending.trans hI.rests.pending, hnames⟩

omit hstd hd in
theorem printResult_follows {x : Value} {saw wantBytes : Bool} (hx : s.Stands fs x v)
    (hsaw : saw = false → x = .undef) :
    Follows c (fun _ a b _ => a = b) (if x = .undef ∨ wantBytes = false then pure none else pure
      (some (x.text true)) : Sem (Option Bytes))
      (printResult c v saw wantBytes) fs w s := by
  have hiff : (!saw || !wantBytes || v == mvUndef) = true ↔ x = .undef ∨ wantBytes = false := by
    have hundef : v = mvUndef ↔ x = .undef := Heap.Stands.undef_iff hx
    cases saw with
    | false => simp [hsaw rfl]
    | true => simp [hundef, or_comm]
  apply Corresponds.ite hiff.symm
  · intro _ hI
    exact ⟨fs, Unaltered.grown ⟨rfl, rfl, rfl, rfl, rfl⟩, hI, rfl⟩
  · intro _
    apply Corresponds.of_fully rfl (F := fun e _ => e.isLimit = true) _ fun e _ he => .inl ⟨e, rfl, he⟩
    intro hI
    apply wp_bind
    apply wp_gets
    apply wp_seq (wp_mono (mlGcProtect_speaks hc hI (Heap.Stands.valOk hx)) (fun _ _ h => h) fun _ _ h => h.elim)
    rintro _ t ⟨hq, ht⟩
    have hx' : t.Stands fs x v := by
      unfold State.Stands
      rw [hq.heap, hq.symtab]
      exact hx
    apply wp_bind
    apply wp_andThen
    apply wp_mono (mlPrintToAlloc_speaks (hI.quiet hq ht) hx') _ fun _ _ h => h
    rintro bytes u ⟨rfl, hq', hu⟩
    have hall : Unaltered s (mlGcRestore s.gcProtect.length u) := (hq.trans hq').trans ⟨rfl, rfl, rfl, rfl, rfl⟩
    exact wp_pure ⟨fs, hall.grown, hI.quiet hall (hu.restore _), rfl⟩

/-- A call does what the request says. -/
theorem run_follows {n k : Nat} (hk : derivationHeight n ≤ k) (q : Request) :
    Follows c (fun _ a b _ => a = b) (respond c.maxReadDepth k q) (q.run c n) fs w s := by
  unfold Request.run microlispEval respond asked
  by_cases hnull : (q.source.isNone && decide (q.sourceLen ≠ 0)) = true
  · simp only [if_pos hnull]
    apply Corresponds.error rfl rfl
    intro hI
    refine .inr (.inr ⟨rfl, fun _ _ => ?_⟩)
    have hraised : Unaltered s
        (mlSetError 0 0 (ascii "source pointer is NULL but length is " ++ decimal q.sourceLen) s) :=
      ⟨rfl, rfl, rfl, rfl, rfl⟩
    exact ⟨fs, hraised.grown, hI.quiet hraised ⟨hI.rests.wf.of_eq rfl (fun _ h => h) fun _ h => h,
      hI.rests.pending, hI.rests.names⟩⟩
  · simp only [if_neg hnull]
    have hclear : Unaltered s (mlClearError s) := ⟨rfl, rfl, rfl, rfl, rfl⟩
    have hcleared : Follows c (fun _ _ _ t => t = mlClearError s) (pure () : Sem Unit) (modify mlClearError) fs w s :=
      fun hI => ⟨fs, hclear.grown, hI.quiet hclear hI.rests.clearError, rfl⟩
    apply Corresponds.unseen (fun h h' => h.trans h') hcleared
    rintro fs' _ t - rfl
    have hundef : (mlClearError s).Stands fs' .undef mvUndef := rfl
    apply Corresponds.bind (fun h h' => h.trans h') (readEvalLoop_follows hstd hc hd hk _ _ hundef fun _ => rfl)
    rintro fs'' x ⟨y, saw⟩ w' t _ ⟨hy, hsaw⟩
    exact printResult_follows hc hy hsaw

end Evaluations

end Microlisp
