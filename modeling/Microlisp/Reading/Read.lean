import Microlisp.Lockstep.Reader
import Microlisp.Reading.Form
import Microlisp.Transparent
/-!
# What `ml_read` returns

From a state between two evaluations the reader ends, and what it returns is what the
grammar says.
-/
namespace Microlisp

open Prog Reader

section Read
variable {c : Config} {s : State} {r : Reader}

/-- The reader returns what the parser says, or fails as it says, or has no memory. -/
theorem mlRead_cases (hs : s.Ready c) (r : Reader) :
    (∃ v r' y, (mlRead c r s).res = .ok (v, r') ∧ parse c.maxReadDepth r = .ok (y, r') ∧
      s.NewForm (mlRead c r s).state y v ∧ s.Reads c [] (mlRead c r s).state) ∨
    ∃ e, (mlRead c r s).res = .error (.err e) ∧ Refused (parse c.maxReadDepth r) e (mlRead c r s).state := by
  have hk := (mlRead_refines (P := True) hs r (fun hp => absurd hp (parse_decided r)) fun _ _ h => h).2
  cases hres : (mlRead c r s).res with
  | ok x =>
    rw [hres] at hk
    obtain ⟨hreads, y, hp, hy⟩ := hk
    exact .inl ⟨x.1, x.2, y, rfl, hp, hy, hreads⟩
  | error e =>
    rw [hres] at hk
    cases e with
    | err e => exact .inr ⟨e, rfl, hk⟩
    | stuck => exact absurd trivial hk
    | timeout => exact absurd trivial hk

theorem Took.iff {limit : Nat} {d : Datum} {r' : Reader} : Took limit r d r' ↔
    r.Past r' ∧ ∃ lay text, Layout lay ∧ r.rest = lay ++ text ∧ Text .datum (limit - r.depth) d text r'.rest := by
  constructor
  · rintro ⟨hpast, htext⟩
    obtain ⟨b, bs, hrest, -⟩ := htext.opens
    obtain ⟨lay, hlay, hr⟩ := skip_some (peek_of_rest hrest)
    exact ⟨hpast, lay, _, hlay, hr, htext⟩
  · rintro ⟨hpast, lay, text, hlay, hr, htext⟩
    have hskip : (skipWsAndComments r).rest = text := by rw [skip_layout hr hlay htext.starts, rest_eat hr]
    exact ⟨hpast, by rwa [hskip]⟩

end Read

/-- The reader takes exactly the texts of the grammar, up to the end of the datum, and builds
the datum that the text denotes. -/
theorem mlRead_grammar (c : Config) (s : State) (hs : s.Ready c) (r r' : Reader) (d : Datum)
    (hmem : (mlRead c r s).res ≠ .error (.err .errNomem)) :
    (∃ v, (mlRead c r s).res = .ok (v, r') ∧ (mlRead c r s).state.Shows (fun _ => True) d v) ↔
      r.Past r' ∧ ∃ lay text, Layout lay ∧ r.rest = lay ++ text ∧
        Text .datum (c.maxReadDepth - r.depth) d text r'.rest := by
  rw [← Took.iff, ← parse_eq_some]
  rcases mlRead_cases hs r with ⟨v, r₁, y, hres, hp, hy, -⟩ | ⟨e, hres, he⟩
  · rw [hres, hp]
    constructor
    · rintro ⟨_, ⟨⟩, hd⟩
      cases y with
      | none => exact absurd hy hd.ne_eof
      | some d' =>
        have hd' : s.New (mlRead c r s).state d' v := hy
        rw [hd.unique hd']
    · rintro ⟨⟩
      exact ⟨v, rfl, Heap.Shows.mono hy fun _ _ => trivial⟩
  · constructor
    · rintro ⟨v, hok, -⟩
      rw [hres] at hok
      cases hok
    · intro hp
      rcases he with rfl | he
      · exact absurd hres hmem
      · rw [hp] at he
        cases he

theorem State.created_ready {c : Config} (htop : c.toplevelEnv = .obj 1) (hquote : c.symQuote = .sym 0) :
    State.created.Ready c where
  wf := State.created_wellFormed htop
  pending := rfl
  table := by decide
  quote := ⟨0, hquote, by decide⟩

theorem mlRead_grammar_list : ∃ v, (mlRead .created (.start (ascii "(#t);")) .created).res
      = .ok (v, (Reader.start (ascii "(#t);")).eat (ascii "(#t)")) ∧
    (mlRead .created (.start (ascii "(#t);")) .created).state.Shows (fun _ => True) (.list [.bool true] .nil) v := by
  have hlist : Text (.list true) 255 .nil ([] ++ ascii ");") (ascii ";") := .close .nil
  have helem : Text (.list false) 255 (.pair (.bool true) .nil) (ascii "#t);") (ascii ";") := by
    have hdot : ¬ Dot (ascii "#t);") := by
      rintro ⟨_, _, ⟨⟩, _⟩
    exact Text.elem .nil hdot (Text.bool (b := true) rfl) hlist
  apply (mlRead_grammar .created .created (State.created_ready rfl rfl) (.start (ascii "(#t);")) _ _
    (by decide +kernel)).2
  exact ⟨past_eat (show _ = ascii "(#t)" ++ ascii ";" from rfl), [], _, .nil, rfl, .list helem⟩

/-! ## Collections -/

/-- With and without collections, readers go in lockstep. -/
theorem lockstep_reads {c : Config} (hc : ∀ n size, c.alloc n size = true) :
    LockstepRead stuckOnly (fun _ => False) c c.withoutCollections (· = ·) Remains where
  toLockstep := (lockstep_collections hc).toLockstep
  maxReadDepth := .inl rfl
  symQuote := rfl
  setSymtab := fun _ s t h => ⟨h.clear, h.next, h.sub, by rw [h.same]⟩

/-- Whatever is collected during a read, it ends as without collections: with the same status
and end position, or error position, and a datum whose pairs and strings are all in the heap. -/
theorem mlRead_collections (c : Config) (hc : ∀ n size, c.alloc n size = true) (s : State)
    (hs : s.Ready c) (r : Reader) :
    (mlRead c r s).res = (mlRead c.withoutCollections r s).res ∧
    (mlRead c r s).state.lastError = (mlRead c.withoutCollections r s).state.lastError ∧
    ∀ v r', (mlRead c r s).res = .ok (v, r') → v = mvEof ∨
      ∃ d, (mlRead c r s).state.Shows (fun _ => True) d v ∧
        (mlRead c.withoutCollections r s).state.Shows (fun _ => True) d v := by
  have hcases := mlRead_cases hs r
  have hstuck : (mlRead c r s).res ≠ .error .stuck := by
    intro hres
    rcases hcases with ⟨_, _, _, hok, -⟩ | ⟨e, herr, -⟩
    · rw [hres] at hok
      cases hok
    · rw [hres] at herr
      cases herr
  obtain ⟨hres, hR⟩ := Remains.of_sim (mlRead_lockstep (lockstep_reads hc).names s s (.refl hs.wf.clear)) hstuck
  refine ⟨hres, by rw [hR.same], ?_⟩
  intro v r' hok
  rcases hcases with ⟨_, _, y, hok', -, hy, -⟩ | ⟨e, herr, -⟩
  · rw [hok] at hok'
    cases hok'
    cases y with
    | none => exact .inl hy
    | some d =>
      have hd : (mlRead c r s).state.Shows (fun _ => True) d v := Heap.Shows.mono hy fun _ _ => trivial
      have hnames : (mlRead c.withoutCollections r s).state.symtab.entries = (mlRead c r s).state.symtab.entries := by
        rw [hR.same]
      exact .inr ⟨d, hd, hd.transfer (fun a o _ ho _ => hR.sub a o ho) (hnames ▸ List.prefix_refl _)
        fun _ _ _ => trivial⟩
  · rw [hok] at herr
    cases herr

theorem mlRead_collections_stressed :
    (mlRead .stressed (.start (ascii "(a \"b\" . 'c)")) .created).res
      = (mlRead Config.stressed.withoutCollections (.start (ascii "(a \"b\" . 'c)")) .created).res :=
  (mlRead_collections .stressed (fun _ _ => rfl) .created (State.created_ready rfl rfl) _).1

end Microlisp
