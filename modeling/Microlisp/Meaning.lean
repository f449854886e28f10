import Microlisp.Lib.Limit
import Microlisp.Refinement
/-!
# What a form means

The semantics bounds the height of a derivation. Without the bound a form has a meaning that
the rules take apart: what it means is what its rule says, with the meanings of its parts.
-/
namespace Microlisp

open Prog

/-- The meaning of a form in an environment: what it comes to with derivations of any height. -/
noncomputable def meaning (c : Config) (form env : Val) : ML Val := limit fun j => refEval c j form env

section Limits
variable {c : Config} {ev : Nat → Val → Val → ML Val} {ev' : Val → Val → ML Val} {args env : Val}
  (hev : ∀ form env, Limit (fun j => ev j form env) (ev' form env))
include hev

theorem refSequence_limit (i : Nat) (forms : Val) :
    Limit (fun j => refSequence (ev j) env i forms) (refSequence ev' env i forms) := by
  induction i generalizing forms with
  | zero => exact .const _
  | succ i ih =>
    apply (Limit.const _).bind
    intro rest
    apply (Limit.const _).bind
    intro more
    apply Limit.ite
    · exact fun _ => (Limit.const _).bind fun _ => (hev _ _).bind fun _ => (Limit.const _).bind fun _ => ih _
    · exact fun _ => (Limit.const _).bind fun _ => hev _ _

theorem refBegin_limit {forms : Val} : Limit (fun j => refBegin (ev j) forms env) (refBegin ev' forms env) := by
  apply Limit.ite fun _ => .const _
  intro _
  apply (Limit.const _).bind
  intro n
  cases n with
  | none => exact .const _
  | some n => exact refSequence_limit hev n forms

theorem refIf_limit : Limit (fun j => refIf (ev j) args env) (refIf ev' args env) := by
  apply (Limit.const _).bind
  intro n
  apply Limit.ite fun _ => .const _
  intro _
  apply (Limit.const _).bind
  intro test
  apply (Limit.const _).bind
  intro branches
  apply (Limit.const _).bind
  intro consequent
  have htest : ∀ alternative, Limit (fun j => do
      let v ← ev j test env
      if mlTruthy v then ev j consequent env
      else if n = some 3 then ev j alternative env
      else pure mvUndef) (do
      let v ← ev' test env
      if mlTruthy v then ev' consequent env
      else if n = some 3 then ev' alternative env
      else pure mvUndef) :=
    fun _ => (hev _ _).bind fun _ => .ite (fun _ => hev _ _) fun _ => .ite (fun _ => hev _ _) fun _ => .const _
  apply Limit.ite
  · exact fun _ => (Limit.const _).bind fun _ => (Limit.const _).bind fun _ => htest _
  · exact fun _ => (Limit.const _).bind fun _ => htest _

theorem refDefine_limit : Limit (fun j => refDefine c (ev j) args env) (refDefine c ev' args env) := by
  apply (Limit.const _).bind
  intro n
  apply Limit.ite fun _ => .const _
  intro _
  apply (Limit.const _).bind
  intro first
  apply (Limit.const _).bind
  intro rest
  apply Limit.ite
  · intro _
    apply Limit.ite fun _ => .const _
    exact fun _ => (Limit.const _).bind fun _ => (hev _ _).bind fun _ => .const _
  · exact fun _ => .const _

theorem refSet_limit : Limit (fun j => refSet (ev j) args env) (refSet ev' args env) := by
  apply (Limit.const _).bind
  intro n
  apply Limit.ite fun _ => .const _
  intro _
  apply (Limit.const _).bind
  intro name
  apply Limit.ite fun _ => .const _
  exact fun _ => (Limit.const _).bind fun _ => (Limit.const _).bind fun _ => (hev _ _).bind fun _ => .const _

theorem refBindings_limit {inner initEnv : Val} (i : Nat) (bindings : Val) :
    Limit (fun j => refBindings c (ev j) inner initEnv i bindings) (refBindings c ev' inner initEnv i bindings) := by
  induction i generalizing bindings with
  | zero => exact .const _
  | succ i ih =>
    apply (Limit.const _).bind
    intro more
    apply Limit.ite _ fun _ => .const _
    intro _
    apply (Limit.const _).bind
    intro binding
    apply (Limit.const _).bind
    intro ok
    apply Limit.ite fun _ => .const _
    intro _
    apply (Limit.const _).bind
    intro name
    apply (Limit.const _).bind
    intro tail
    apply (Limit.const _).bind
    intro init
    exact (hev _ _).bind fun _ => (Limit.const _).bind fun _ => (Limit.const _).bind fun _ => ih _

theorem refLet_limit {starlike recursive : Bool} :
    Limit (fun j => refLet c (ev j) args env starlike recursive) (refLet c ev' args env starlike recursive) := by
  apply (Limit.const _).bind
  intro n
  apply Limit.ite fun _ => .const _
  intro _
  apply (Limit.const _).bind
  intro bindings
  apply (Limit.const _).bind
  intro body
  apply (Limit.const _).bind
  intro count
  cases count with
  | none => exact .const _
  | some count =>
    apply (Limit.const _).bind
    intro inner
    have hbody : ∀ initEnv, Limit (fun j => do
        refBindings c (ev j) inner initEnv (count + 1) bindings
        refBegin (ev j) body inner) (do
        refBindings c ev' inner initEnv (count + 1) bindings
        refBegin ev' body inner) :=
      fun _ => (refBindings_limit hev _ _).bind fun _ => refBegin_limit hev
    exact .ite (fun _ => (Limit.const _).bind fun _ => hbody _) fun _ => hbody _

theorem refAndOrLoop_limit {isOr : Bool} (i : Nat) (args : Val) :
    Limit (fun j => refAndOrLoop (ev j) env isOr i args) (refAndOrLoop ev' env isOr i args) := by
  induction i generalizing args with
  | zero => exact .const _
  | succ i ih =>
    apply (Limit.const _).bind
    intro rest
    apply (Limit.const _).bind
    intro more
    apply Limit.ite
    · intro _
      apply (Limit.const _).bind
      intro operand
      exact (hev _ _).bind fun _ => .ite (fun _ => .const _) fun _ => (Limit.const _).bind fun _ => ih _
    · exact fun _ => (Limit.const _).bind fun _ => hev _ _

theorem refAndOr_limit {isOr : Bool} : Limit (fun j => refAndOr (ev j) args env isOr) (refAndOr ev' args env isOr) := by
  apply Limit.ite fun _ => .const _
  intro _
  apply (Limit.const _).bind
  intro n
  cases n with
  | none => exact .const _
  | some n => exact refAndOrLoop_limit hev n args

theorem refCondLoop_limit (i : Nat) (clauses : Val) :
    Limit (fun j => refCondLoop c (ev j) env i clauses) (refCondLoop c ev' env i clauses) := by
  induction i generalizing clauses with
  | zero => exact .const _
  | succ i ih =>
    apply (Limit.const _).bind
    intro more
    apply Limit.ite _ fun _ => .const _
    intro _
    apply (Limit.const _).bind
    intro clause
    apply (Limit.const _).bind
    intro ok
    apply Limit.ite fun _ => .const _
    intro _
    apply (Limit.const _).bind
    intro test
    apply (Limit.const _).bind
    intro body
    apply Limit.ite fun _ => refBegin_limit hev
    intro _
    apply (hev _ _).bind
    intro v
    apply Limit.ite
    · exact fun _ => .ite (fun _ => .const _) fun _ => refBegin_limit hev
    · exact fun _ => (Limit.const _).bind fun _ => ih _

theorem refCond_limit : Limit (fun j => refCond c (ev j) args env) (refCond c ev' args env) := by
  apply (Limit.const _).bind
  intro n
  cases n with
  | none => exact .const _
  | some n => exact refCondLoop_limit hev _ args

theorem refArgs_limit (i : Nat) (args : Val) : Limit (fun j => refArgs (ev j) env i args) (refArgs ev' env i args) := by
  induction i generalizing args with
  | zero => exact .const _
  | succ i ih =>
    apply (Limit.const _).bind
    intro operand
    exact (hev _ _).bind fun _ => (Limit.const _).bind fun _ => (ih _).bind fun _ => .const _

theorem refOperands_limit : Limit (fun j => refOperands (ev j) args env) (refOperands ev' args env) := by
  apply (Limit.const _).bind
  intro n
  cases n with
  | none => exact .const _
  | some n => exact refArgs_limit hev n args

theorem refApply_limit {proc : Val} {argv : List Val} :
    Limit (fun j => refApply c (ev j) proc argv) (refApply c ev' proc argv) := by
  apply (Limit.const _).bind
  intro prim
  apply Limit.ite fun _ => .const _
  intro _
  apply (Limit.const _).bind
  intro closure
  apply Limit.ite _ fun _ => .const _
  exact fun _ => (Limit.const _).bind fun _ => (Limit.const _).bind fun _ => refBegin_limit hev

theorem refCall_limit {head rest : Val} :
    Limit (fun j => refCall c (ev j) head rest env) (refCall c ev' head rest env) :=
  (hev _ _).bind fun _ => (refOperands_limit hev).bind fun _ => refApply_limit hev

theorem refPair_limit {head rest : Val} :
    Limit (fun j => refPair c (ev j) head rest env) (refPair c ev' head rest env) := by
  apply Limit.ite fun _ => .const _
  refine fun _ => .ite (fun _ => refIf_limit hev) fun _ => .ite (fun _ => refDefine_limit hev) fun _ => ?_
  refine .ite (fun _ => refSet_limit hev) fun _ => .ite (fun _ => .const _) fun _ =>
    .ite (fun _ => refBegin_limit hev) fun _ => ?_
  refine .ite (fun _ => refLet_limit hev) fun _ => .ite (fun _ => refLet_limit hev) fun _ =>
    .ite (fun _ => refLet_limit hev) fun _ => ?_
  refine .ite (fun _ => refAndOr_limit hev) fun _ => .ite (fun _ => refAndOr_limit hev) fun _ => ?_
  exact .ite (fun _ => refCond_limit hev) fun _ => refCall_limit hev

theorem refForm_limit {form : Val} : Limit (fun j => refForm c (ev j) form env) (refForm c ev' form env) := by
  cases form with
  | obj a =>
    apply (Limit.const _).bind
    intro pair
    apply Limit.ite _ fun _ => .const _
    intro _
    apply (Limit.const _).bind
    intro head
    apply (Limit.const _).bind
    intro rest
    exact .ite (fun _ => refPair_limit hev) fun _ => refCall_limit hev
  | _ => exact .const _

end Limits

section Meaning
variable {c : Config} {form env : Val} {s t u : State} {o o' : Except Status Val}

theorem refEval_mono (i j : Nat) (hij : i ≤ j) (form env : Val) :
    Below (refEval c i form env) (refEval c j form env) := by
  induction i generalizing j form env with
  | zero => exact fun _ => .inl rfl
  | succ i ih =>
    obtain ⟨j, rfl⟩ : ∃ k, j = k + 1 := ⟨j - 1, by omega⟩
    -- a chain of two
    have hev : ∀ form env, Limit (fun k => (if k = 0 then refEval c i else refEval c j) form env)
        (refEval c j form env) := by
      intro form env
      have hle := ih j (by omega) form env
      refine ⟨fun k l hkl => ?_, fun k => ?_, fun s => .inr ⟨1, rfl⟩⟩
      · by_cases hk : k = 0
        · by_cases hl : l = 0
          · simpa [hk, hl] using Below.refl
          · simpa [hk, hl] using hle
        · simpa [hk, show l ≠ 0 by omega] using Below.refl
      · by_cases hk : k = 0
        · simpa [hk] using hle
        · simpa [hk] using Below.refl
    exact (refForm_limit hev).below 0

theorem meaning_limit : Limit (fun j => refEval c j form env) (meaning c form env) :=
  limit_limit fun i j hij => refEval_mono i j hij form env

/-- The meaning of a form is what its rule says, with the meanings of its parts. -/
theorem meaning_rule : SameAt (meaning c form env) (refForm c (meaning c) form env) s :=
  meaning_limit.succ.same (refForm_limit fun _ _ => meaning_limit)

theorem derives_iff : Derives c s form env o t ↔ (meaning c form env s).Ends o ∧ (meaning c form env s).state = t := by
  constructor
  · rintro ⟨j, ho, rfl⟩
    have heq := meaning_limit.eq_of_ends ho
    exact ⟨heq ▸ ho, by rw [heq]⟩
  · rintro ⟨ho, rfl⟩
    obtain ⟨j, hj⟩ := meaning_limit.exists_eq ho
    exact ⟨j, hj ▸ ho, by rw [hj]⟩

end Meaning

/-! ## What evaluations end with -/

theorem Agrees.refl (s : State) : Agrees s s := ⟨rfl, rfl, rfl, rfl, rfl, rfl, rfl⟩

theorem Agrees.symm {s t : State} (h : Agrees s t) : Agrees t s :=
  ⟨h.heap.symm, h.symtab.symm, h.output.symm, h.writes.symm, h.flushes.symm, h.printDepth.symm, h.equalDepth.symm⟩

theorem Agrees.trans {s t u : State} (h : Agrees s t) (h' : Agrees t u) : Agrees s u :=
  ⟨h.heap.trans h'.heap, h.symtab.trans h'.symtab, h.output.trans h'.output, h.writes.trans h'.writes,
    h.flushes.trans h'.flushes,
    h.printDepth.trans h'.printDepth, h.equalDepth.trans h'.equalDepth⟩

/-- Under every limit from some limit on, `ml_eval` ends with this outcome, in a state that
agrees with `t`: what a form evaluates to, its effects included, where no depth limit is
reached. -/
def Yields (c : Config) (s : State) (form env : Val) (o : Except Status Val) (t : State) : Prop :=
  ∃ least, ∀ limit ≥ least, ∀ n ≥ least, (mlEval (c.withEvalLimit limit) n form env s).Ends o ∧
    Agrees (mlEval (c.withEvalLimit limit) n form env s).state t

section Yields
variable {c : Config} {form env : Val} {s t u : State} {o o' : Except Status Val}

theorem Yields.unique (h : Yields c s form env o t) (h' : Yields c s form env o' u) : o = o' ∧ Agrees t u := by
  obtain ⟨least, h⟩ := h
  obtain ⟨least', h'⟩ := h'
  obtain ⟨ho, ht⟩ := h (max least least') (Nat.le_max_left _ _) (max least least') (Nat.le_max_left _ _)
  obtain ⟨ho', hu⟩ := h' (max least least') (Nat.le_max_right _ _) (max least least') (Nat.le_max_right _ _)
  exact ⟨ho.unique ho', ht.symm.trans hu⟩

variable (hc : ∀ n size, c.alloc n size = true) (hd : ∀ s, c.collectDue s = false)
include hc hd

theorem yields_iff : Yields c s form env o t ↔ ∃ u, (meaning c form env s).Ends o ∧
    (meaning c form env s).state = u ∧ Agrees u t := by
  constructor
  · rintro ⟨least, h⟩
    obtain ⟨ho, ht⟩ := h (least + (s.evalDepth + least)) (by omega) least (Nat.le_refl _)
    have hs : AgreesAt s.evalDepth s s := ⟨.refl s, rfl⟩
    have hlimit : s.evalDepth + least ≤ least + (s.evalDepth + least) := by omega
    have hsim : SimAt noOutcome (fun _ => False) (AgreesAt s.evalDepth) _ _ s s :=
      mlEval_sound_under hc hd (fun _ => id) least _ (Nat.le_refl _) (.inl hlimit) form env s s hs
    have hcompared : ∀ e, o = .error e → ¬ noOutcome (.err e) := by
      rintro e - (hx | hx) <;> cases hx
    obtain ⟨hends, hR⟩ := hsim.ends ho hcompared fun _ => id
    obtain ⟨hm, hstate⟩ := derives_iff.1 ⟨_, hends, rfl⟩
    exact ⟨_, hm, hstate, hR.1.symm.trans ht⟩
  · rintro ⟨u, ho, hu, ht⟩
    obtain ⟨least, h⟩ := (mlEval_refines c hc hd form env s).2 o u (derives_iff.2 ⟨ho, hu⟩)
    exact ⟨least, fun limit hl n hn => ⟨(h limit hl n hn).1, (h limit hl n hn).2.trans ht⟩⟩

/-- An evaluation that ends, not at the depth limit, ends with what the form yields. -/
theorem yields_of_mlEval {n : Nat} (ho : (mlEval c n form env s).Ends o) (hne : o ≠ .error .errEvalDepth) :
    Yields c s form env o (mlEval c n form env s).state := by
  obtain ⟨u, hu, ht⟩ := (mlEval_refines c hc hd form env s).1 n o ho hne
  obtain ⟨hends, hstate⟩ := derives_iff.1 hu
  exact (yields_iff hc hd).2 ⟨u, hends, hstate, ht.symm⟩

/-- Forms that mean the same yield the same. -/
theorem yields_congr {form' : Val} (h : SameAt (meaning c form env) (meaning c form' env) s) :
    Yields c s form env o t ↔ Yields c s form' env o t := by
  have hone : ∀ {form form'}, SameAt (meaning c form env) (meaning c form' env) s → Yields c s form env o t →
      Yields c s form' env o t := by
    intro form form' h hy
    obtain ⟨u, ho, hu, ht⟩ := (yields_iff hc hd).1 hy
    obtain ⟨ho', hu'⟩ := h.ends ho
    exact (yields_iff hc hd).2 ⟨u, ho', hu'.trans hu, ht⟩
  exact ⟨hone h, hone h.symm⟩

end Yields

end Microlisp
