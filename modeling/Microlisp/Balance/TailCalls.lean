import Microlisp.Balance.Eval
import Microlisp.Lockstep.Fuel
/-!
# Tail calls cost no stack

A run of `eval_body` pushes its two slots and then takes one turn of its loop after the other, each
from the state that the one before has left. All of them start at the depth of the entry and with
the protect stack of the entry and the two slots, so it is never the number of turns that makes the
recursion too deep, only a call of `ml_eval` that one of them makes.
-/
namespace Microlisp

open Prog

/-- The two slots of an `eval_body`. -/
def enterBody (c : Config) (sp : Nat) (form env : Val) : ML Unit := do
  mlGcProtect c form
  (mlGcProtect c env).onErr (mlGcRestore sp)

/-- What the loop returns after a turn; nothing if it goes on. -/
def leaves : Except (Halt Status) Iter → Option (Except (Halt Status) Val)
  | .ok .again => none
  | .ok (.done v) => some (.ok v)
  | .error h => some (.error h)

theorem leaves_error {r : Except (Halt Status) Iter} {h : Halt Status} (hr : leaves r = some (.error h)) :
    r = .error h := by
  cases r with
  | error x =>
    cases hr
    rfl
  | ok i => cases i <;> cases hr

/-- `ev`, but a call from depth `d` that reports too deep a recursion does not return. -/
def refusing (d : Nat) (ev : Val → Val → ML Val) (form env : Val) : ML Val := fun s =>
  if s.evalDepth = d ∧ (ev form env s).res = .error (.err .errEvalDepth) then
    ⟨.error .stuck, (ev form env s).state, (ev form env s).trace⟩
  else
    ev form env s

section Turns
variable (c : Config) (ev : Val → Val → ML Val) (form env : Val) (s0 : State)

/-- An `eval_body` entered at `s0` is at the head of its loop in `t` after `k` turns, and has recorded
`l`. -/
inductive Turns : Nat → State → List Event → Prop
  | enter : (enterBody c s0.gcProtect.length form env s0).res = .ok () →
      Turns 0 (enterBody c s0.gcProtect.length form env s0).state (enterBody c s0.gcProtect.length form env s0).trace
  | turn {k : Nat} {t : State} {l : List Event} : Turns k t l → (evalIter c ev s0.gcProtect.length t).res = .ok .again →
      Turns (k + 1) (evalIter c ev s0.gcProtect.length t).state (l ++ (evalIter c ev s0.gcProtect.length t).trace)

/-- How an `eval_body` entered at `s0` can end: there is no room for the slots, or one of `turns` turns
leaves the loop, or there are more turns than that. -/
inductive BodyRun (turns : Nat) : Run State Status Event Val → Prop
  | refused {h : Halt Status} : (enterBody c s0.gcProtect.length form env s0).res = .error h →
      BodyRun turns ⟨.error h, (enterBody c s0.gcProtect.length form env s0).state,
        (enterBody c s0.gcProtect.length form env s0).trace⟩
  | left {k : Nat} {t : State} {l : List Event} {r : Except (Halt Status) Val} : k < turns →
      Turns c ev form env s0 k t l →
      leaves (evalIter c ev s0.gcProtect.length t).res = some r →
      BodyRun turns ⟨r, (evalIter c ev s0.gcProtect.length t).state, l ++ (evalIter c ev s0.gcProtect.length t).trace⟩
  | unended {t : State} {l : List Event} : Turns c ev form env s0 turns t l → BodyRun turns ⟨.error .timeout, t, l⟩

end Turns

section Bodies
variable {c : Config} {ev : Val → Val → ML Val} {form env : Val} {s0 s t : State} {k turns : Nat} {l : List Event}

/-! ## The turns of a run -/

/-- From the head of the loop on. -/
theorem evalLoop_run (h : Turns c ev form env s0 k t l) (turns : Nat) :
    BodyRun c ev form env s0 (k + turns) ⟨(evalLoop c ev s0.gcProtect.length turns t).res,
      (evalLoop c ev s0.gcProtect.length turns t).state, l ++ (evalLoop c ev s0.gcProtect.length turns t).trace⟩ := by
  -- on the turns left; the record of the turns so far stands in front
  induction turns generalizing k t l with
  | zero =>
    have hend : BodyRun c ev form env s0 k ⟨.error .timeout, t, l ++ []⟩ := by
      rw [List.append_nil]
      exact .unended h
    exact hend
  | succ turns ih =>
    have hlt : k < k + (turns + 1) := by omega
    unfold evalLoop
    simp only [Bind.bind, Prog.bind]
    cases hr : (evalIter c ev s0.gcProtect.length t).res with
    | error x => exact .left hlt h (by rw [hr]; rfl)
    | ok i =>
      cases i with
      | done v =>
        simp only [Pure.pure, Prog.pure, List.append_nil]
        exact .left hlt h (by rw [hr]; rfl)
      | again =>
        have hnext := ih (h.turn hr)
        rw [List.append_assoc, show k + 1 + turns = k + (turns + 1) by omega] at hnext
        exact hnext

theorem evalBody_run : BodyRun c ev form env s0 turns (evalBody c ev turns form env s0) := by
  have henter : evalBody c ev turns form env s0
      = (enterBody c s0.gcProtect.length form env >>= fun _ => evalLoop c ev s0.gcProtect.length turns) s0 := by
    unfold evalBody mlGcSavepoint enterBody
    rw [gets_bind_run, bind_assoc]
  rw [henter]
  simp only [Bind.bind, Prog.bind]
  cases hr : (enterBody c s0.gcProtect.length form env s0).res with
  | error x => exact .refused hr
  | ok u =>
    have hhead : Turns c ev form env s0 0 _ _ := .enter hr
    have hrun := evalLoop_run hhead turns
    rwa [Nat.zero_add] at hrun

theorem Turns.head (h : Turns c ev form env s0 k t l) : Head c ev s0 form env t := by
  induction h with
  | enter hok => exact .enter hok
  | turn _ hok ih => exact .turn ih hok

theorem Head.at_head (hev : ∀ s0 xs f e, Keeps c anyStatus s0 xs (ev f e)) (h : Head c ev s0 form env t) :
    s0.AtHead c t := by
  have hS : ∀ e, e ≠ Status.errEvalDepth → anyStatus e := fun _ _ => trivial
  induction h with
  | enter hok => exact ⟨form, env, ok_of_triple (enter_head hS) .refl hok⟩
  | turn _ hok ih => exact ok_of_triple (evalIter_ends hS fun s1 _ => hev s1) ih hok

/-! ## Calls that do not return -/

/-- A turn takes the same steps until a call that does not return. -/
theorem evalIter_refusing (c : Config) (ev : Val → Val → ML Val) (t : State) (d sp : Nat) :
    (evalIter c (refusing d ev) sp t).res = .error .stuck ∨
      (evalIter c (refusing d ev) sp t).res = (evalIter c ev sp t).res := by
  have hev : ∀ form env, Sim (· = .stuck) (fun _ => False) (· = ·) (refusing d ev form env) (ev form env) := by
    rintro form env s _ rfl
    by_cases h : s.evalDepth = d ∧ (ev form env s).res = .error (.err .errEvalDepth)
    · exact simAt_of_left (x := .stuck) (by rw [refusing, if_pos h]) rfl
    · have hsame : refusing d ev form env s = ev form env s := if_neg h
      have hrefl : SimAt (· = .stuck) (fun _ => False) (· = ·) (ev form env) (ev form env) s s := sim_refl _ s s rfl
      unfold SimAt at hrefl ⊢
      rwa [hsame]
  have hrun : SimAt (· = .stuck) (fun _ => False) (· = ·) (evalIter c (refusing d ev) sp) (evalIter c ev sp) t t :=
    evalIter_lockstep (lockstep_same (c := c)).toLockstepEval hev rfl t t rfl
  unfold SimAt Run.Sim at hrun
  split at hrun <;> rename_i hl hr <;> rw [hl, hr]
  · exact .inr (congrArg _ hrun.1)
  · rcases hrun with rfl | h | ⟨rfl, -⟩
    · exact .inl rfl
    · exact h.elim
    · exact .inr rfl
  · exact .inl (congrArg _ hrun)
  · exact hrun.elim

/-- No call from that depth reports too deep a recursion. -/
theorem refusing_keeps (hev : ∀ s0 xs f e, Keeps c anyStatus s0 xs (ev f e)) {xs : List Val} {f e : Val} :
    Keeps c (· ≠ .errEvalDepth) s xs (refusing s.evalDepth ev f e) := by
  intro t ht
  have hrun := hev s xs f e t ht
  unfold wp Run.Meets at hrun ⊢
  unfold refusing
  by_cases h : t.evalDepth = s.evalDepth ∧ (ev f e t).res = .error (.err .errEvalDepth)
  · rw [if_pos h]
    exact fun hx => ⟨(hrun hx).1, id⟩
  · rw [if_neg h]
    intro hx
    obtain ⟨hgood, hk⟩ := hrun hx
    refine ⟨hgood, ?_⟩
    split at hk <;> rename_i hr
    · exact hk
    · exact ⟨fun he => h ⟨ht.evalDepth, he ▸ hr⟩, hk.2⟩
    · exact hk
    · exact hk

/-- A turn that reports too deep a recursion does not get past such a call. -/
theorem Turns.nested (hev : ∀ s0 xs f e, Keeps c anyStatus s0 xs (ev f e)) (h : Turns c ev form env s0 k t l)
    (hr : (evalIter c ev s0.gcProtect.length t).res = .error (.err .errEvalDepth)) :
    (evalIter c (refusing s0.evalDepth ev) s0.gcProtect.length t).res = .error .stuck := by
  have hends : Triple (s0.watch c) (s0.AtHead c) (evalIter c (refusing s0.evalDepth ev) s0.gcProtect.length)
      (IterEnds c s0) (Fails c (· ≠ .errEvalDepth) s0 []) :=
    evalIter_ends (fun _ he => he) fun s1 hs1 xs f e => hs1 ▸ refusing_keeps hev
  have hk := (hends t (h.head.at_head hev) fun _ _ => id).2
  rcases evalIter_refusing c ev t s0.evalDepth s0.gcProtect.length with hstuck | hsame
  · exact hstuck
  · rw [hsame, hr] at hk
    exact absurd rfl hk.1

/-- The two pushes do not report too deep a recursion. -/
theorem enterBody_ne : (enterBody c s0.gcProtect.length form env s0).res ≠ .error (.err .errEvalDepth) := by
  have henter : Triple (s0.watch c) (s0.At c []) (enterBody c s0.gcProtect.length form env)
      (fun _ => s0.At c [form, env])
      (Fails c (· ≠ .errEvalDepth) s0 []) := enter_head fun _ he => he
  intro hr
  have hk := (henter s0 .refl fun _ _ => id).2
  rw [hr] at hk
  exact hk.1 rfl

end Bodies

/-- `ml_eval` reports too deep a recursion when it is entered at the limit, or when its body does. -/
theorem mlEval_too_deep {c : Config} {n : Nat} {form env : Val} {s : State}
    (hr : (mlEval c (n + 1) form env s).res = .error (.err .errEvalDepth)) :
    c.maxEvalDepth ≤ s.evalDepth ∨
      (evalBody c (mlEval c n) (n + 1) form env { s with evalDepth := s.evalDepth + 1 }).res
      = .error (.err .errEvalDepth) := by
  by_cases hlimit : s.evalDepth ≥ c.maxEvalDepth
  · exact .inl hlimit
  · rw [mlEval, gets_bind_run, if_neg hlimit, modify_bind_run] at hr
    exact .inr (andThen_res.symm.trans hr)

/-- A run of `eval_body` is made of the turns of its loop. However many there are, each starts at the
depth of the entry, with the protect stack of the entry and the two slots. The run reports too deep a
recursion only in a turn that calls `ml_eval` at that depth and gets this report; and `ml_eval` does
only when it is entered at the limit, or when such a run does. -/
theorem evalBody_tail_calls (c : Config) (n turns : Nat) (form env : Val) (s0 : State) :
    BodyRun c (mlEval c n) form env s0 turns (evalBody c (mlEval c n) turns form env s0) ∧
    (∀ k t l, Turns c (mlEval c n) form env s0 k t l →
      t.evalDepth = s0.evalDepth ∧ ∃ f e, t.gcProtect = s0.gcProtect ++ [f, e]) ∧
    ((evalBody c (mlEval c n) turns form env s0).res = .error (.err .errEvalDepth) →
      ∃ k t l, k < turns ∧ Turns c (mlEval c n) form env s0 k t l ∧
        (evalIter c (mlEval c n) s0.gcProtect.length t).res = .error (.err .errEvalDepth) ∧
        (evalIter c (refusing s0.evalDepth (mlEval c n)) s0.gcProtect.length t).res = .error .stuck) ∧
    ((mlEval c (n + 1) form env s0).res = .error (.err .errEvalDepth) → c.maxEvalDepth ≤ s0.evalDepth ∨
      (evalBody c (mlEval c n) (n + 1) form env { s0 with evalDepth := s0.evalDepth + 1 }).res
        = .error (.err .errEvalDepth)) := by
  have hev : ∀ s0 xs f e, Keeps c anyStatus s0 xs (mlEval c n f e) := mlEval_keeps (fun _ => trivial) n
  refine ⟨evalBody_run, fun k t l h => ?_, fun hr => ?_, mlEval_too_deep⟩
  · obtain ⟨f, e, ht⟩ := h.head.at_head hev
    exact ⟨ht.evalDepth, f, e, ht.protect⟩
  · generalize hrun : evalBody c (mlEval c n) turns form env s0 = run at hr
    have hbody : BodyRun c (mlEval c n) form env s0 turns run := hrun ▸ evalBody_run
    cases hbody with
    | refused henter =>
      cases hr
      exact absurd henter enterBody_ne
    | left hk h hleaves =>
      have hturn := leaves_error (hleaves.trans (congrArg some hr))
      exact ⟨_, _, _, hk, h, hturn, h.nested hev hturn⟩
    | unended h => cases hr

/-- The form `(begin 6 7)` next to the top-level frame. -/
def State.beginForm : State :=
  { State.created with
    heap := ((State.created.heap.alloc (.pair (mlMakeFix 7) mvNil)).alloc (.pair (mlMakeFix 6) (.obj 2))).alloc
      (.pair (.sym 8) (.obj 3)) }

/-- The defaults, with room for one evaluation at a time. -/
def Config.shallow : Config := { Config.created with maxEvalDepth := 1 }

/-- The turn after the tail transfer to `7`; and a run that the evaluation of `6` ends. -/
theorem evalBody_tail_calls_begin :
    (∃ t l, Turns .created (mlEval .created 1) (.obj 4) (.obj 1) .beginForm 1 t l ∧
      t.gcProtect = [mlMakeFix 7, .obj 1] ∧ t.evalDepth = State.beginForm.evalDepth) ∧
    ∃ k t l, k < 2 ∧ Turns .shallow (mlEval .shallow 1) (.obj 4) (.obj 1)
      { State.beginForm with evalDepth := 1 } k t l ∧
      (evalIter .shallow (refusing 1 (mlEval .shallow 1)) 0 t).res = .error .stuck := by
  have henter : Turns .created (mlEval .created 1) (.obj 4) (.obj 1) .beginForm 0 _ _ := .enter rfl
  have hturn : Turns .created (mlEval .created 1) (.obj 4) (.obj 1) .beginForm 1 _ _ := henter.turn rfl
  refine ⟨⟨_, _, hturn, rfl, ((evalBody_tail_calls .created 1 2 (.obj 4) (.obj 1) .beginForm).2.1 _ _ _ hturn).1⟩, ?_⟩
  have hdeep : (mlEval .shallow 2 (.obj 4) (.obj 1) .beginForm).res = .error (.err .errEvalDepth) := by decide +kernel
  rcases (evalBody_tail_calls .shallow 1 2 (.obj 4) (.obj 1) .beginForm).2.2.2 hdeep with hlimit | hbody
  · exact absurd hlimit (by decide)
  · obtain ⟨k, t, l, hk, h, -, hstuck⟩ :=
      (evalBody_tail_calls .shallow 1 2 (.obj 4) (.obj 1) { State.beginForm with evalDepth := 1 }).2.2.1 hbody
    exact ⟨k, t, l, hk, h, hstuck⟩

end Microlisp
