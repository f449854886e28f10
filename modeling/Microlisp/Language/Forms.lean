import Microlisp.Language.Frames
import Microlisp.Writing
/-!
# Special forms

Each rule of the reference semantics does in the heap what the rule of the language says.
-/
namespace Microlisp

open Prog Microlisp.Language

/-! ## Data as forms -/

theorem Datum.elems_list {es : List Datum} : (Datum.list es .nil).elems = some es := by
  induction es with
  | nil => rfl
  | cons e es ih =>
    show (Datum.list es .nil).elems.map (e :: ·) = _
    rw [ih]
    rfl

theorem Datum.eq_list {d : Datum} {es : List Datum} (h : d.elems = some es) : d = .list es .nil := by
  induction d generalizing es with
  | nil =>
    cases h
    rfl
  | pair a d _ ih =>
    obtain ⟨es', hes, rfl⟩ := Option.map_eq_some_iff.1 h
    rw [ih hes]
    rfl
  | _ => cases h

theorem Datum.eq_parameters {d : Datum} {names : List Bytes} {rest : Option Bytes} (h : d.params = some (names, rest)) :
    d = parameters names rest := by
  induction d generalizing names with
  | nil =>
    cases h
    rfl
  | sym name =>
    cases h
    rfl
  | pair a d _ ih =>
    cases a with
    | sym name =>
      obtain ⟨⟨names', rest'⟩, hp, he⟩ := Option.map_eq_some_iff.1 h
      cases he
      rw [ih hp]
      rfl
    | _ => cases h
  | _ => cases h

section Data
variable {s : State} {d x y : Datum} {v : Val} {fs : List Nat} {z : Value} {α : Type} {es : List Datum}

theorem State.Form.pair (hv : s.Form (.pair x y) v) : ∃ p q, s.heap.Has v (.pair p q) ∧ s.Form x p ∧ s.Form y q := by
  obtain ⟨a, p, q, rfl, -, ho, hp, hq⟩ := hv
  exact ⟨p, q, ⟨a, rfl, ho⟩, hp, hq⟩

/-- A test of the object behind a value. -/
theorem isObjType_run {p : Obj → Bool} {q : Value → Bool} {k : Bool → ML α} (hv : s.Stands fs z v)
    (hobj : ∀ o, z.Looks o → p o = q z)
    (hother : z.isObj = false → q z = false) : (isObjType p v >>= k) s = k (q z) s := by
  cases hz : z.isObj with
  | true =>
    obtain ⟨a, o, rfl, ho, -⟩ := Heap.Stands.obj hv hz
    cases a with
    | zero => cases ho.symm.trans Heap.get_zero
    | succ a =>
      unfold isObjType readObj
      simp only [bind_assoc]
      rw [gets_bind_run, ho]
      simp only [pure_bind]
      rw [hobj o (Heap.Stands.looks hv ⟨_, rfl, ho⟩)]
  | false =>
    have hno := Heap.Stands.not_obj hv hz
    rw [hother hz]
    cases v with
    | obj a => exact absurd rfl (hno a)
    | _ => exact pure_bind_run

theorem mlIsPair_stands {k : Bool → ML α} (hv : s.Stands fs z v) : (mlIsPair v >>= k) s = k z.isPair s := by
  apply isObjType_run hv
  · intro o ho
    cases z <;> cases o <;> first | rfl | cases ho
  · cases z <;> simp [Value.isObj, Value.isPair]

theorem mlIsString_stands {k : Bool → ML α} (hv : s.Stands fs z v) : (mlIsString v >>= k) s = k z.isStr s := by
  apply isObjType_run hv
  · intro o ho
    cases z <;> cases o <;> first | rfl | cases ho
  · cases z <;> simp [Value.isObj, Value.isStr]

theorem mlIsClosure_stands {k : Bool → ML α} (hv : s.Stands fs z v) : (mlIsClosure v >>= k) s = k z.isClosure s := by
  apply isObjType_run hv
  · intro o ho
    cases z <;> cases o <;> first | rfl | cases ho
  · cases z <;> simp [Value.isObj, Value.isClosure]

theorem mlIsPrim_stands {k : Bool → ML α} (hv : s.Stands fs z v) : (mlIsPrim v >>= k) s = k z.isPrim s := by
  apply isObjType_run hv
  · intro o ho
    cases z <;> cases o <;> first | rfl | cases ho
  · cases z <;> simp [Value.isObj, Value.isPrim]

theorem State.Form.stands (hv : s.Form d v) : s.Stands fs (.ofDatum d) v := Heap.Shows.stands hv

theorem mlIsPair_form {k : Bool → ML α} (hv : s.Form d v) : (mlIsPair v >>= k) s = k (Value.ofDatum d).isPair s := by
  have hstands : s.Stands [] (.ofDatum d) v := hv.stands
  exact mlIsPair_stands hstands

/-- Only `()` is the end of a proper list. -/
theorem form_nil (hv : s.Form d v) : v = mvNil ↔ d = .nil := by
  constructor
  · rintro rfl
    exact Heap.Shows.unique hv (show s.heap.Shows s.symtab.entries (fun _ => True) .nil mvNil from rfl)
  · rintro rfl
    exact hv

/-- The loop over a spine, and what it returns. -/
theorem walkList_stands (hv : s.Stands fs z v) : ∃ u, (u = mvNil ↔ z.length?.isSome = true) ∧
    (∀ n, z.length? = some n → z.cells = n) ∧
    ∀ (bound n : Nat) (k : Nat × Val → ML α), z.cells < bound → (walkList bound v n >>= k) s = k
      (n + z.cells, u) s := by
  induction z generalizing v with
  | pair a d _ ih =>
    obtain ⟨p, q, ho, -, hq⟩ := hv
    obtain ⟨u, hu, hlen, hwalk⟩ := ih hq
    refine ⟨u, ?_, ?_, ?_⟩
    · rw [hu, Value.length?, Option.isSome_map]
    · intro n hn
      obtain ⟨m, hm, rfl⟩ := Option.map_eq_some_iff.1 hn
      rw [Value.cells, hlen m hm]
    · intro bound n k hb
      obtain ⟨bound, rfl⟩ := Nat.exists_eq_add_of_lt hb
      have hlt : d.cells < (Value.pair a d).cells + bound := by
        rw [Value.cells]
        omega
      unfold walkList
      rw [bind_assoc, mlIsPair_run ho]
      simp only [if_true, bind_assoc]
      rw [cdr_run ho, hwalk _ _ _ hlt]
      simp only [Value.cells, Nat.add_assoc, Nat.add_comm 1]
  | _ =>
    refine ⟨v, (Heap.Stands.nil_iff hv).trans (by simp [Value.length?]), by simp [Value.length?, Value.cells], ?_⟩
    intro bound n k hb
    obtain ⟨bound, rfl⟩ := Nat.exists_eq_add_of_lt hb
    unfold walkList
    rw [bind_assoc, mlIsPair_stands hv]
    exact pure_bind_run

theorem properListLength_stands {k : Option Nat → ML α} (hv : s.Stands fs z v) :
    (properListLength v >>= k) s = k z.length? s := by
  obtain ⟨u, hu, hlen, hwalk⟩ := walkList_stands (α := α) hv
  obtain ⟨_, hspine, hends⟩ := Heap.Stands.spine hv
  have hlt := hspine.lt_next hends
  unfold properListLength walkBound
  rw [bind_assoc, gets_bind_run, bind_assoc, hwalk _ _ _ (Nat.lt_succ_of_lt hlt)]
  cases hlength : z.length? with
  | none =>
    have hne : u ≠ mvNil := fun h => by simpa [hlength] using hu.1 h
    simp only [if_pos hne]
    exact pure_bind_run
  | some n =>
    have hnil : u = mvNil := hu.2 (by rw [hlength]; rfl)
    simp only [hnil, ne_eq, not_true_eq_false, if_false, Nat.zero_add, hlen n hlength]
    exact pure_bind_run

theorem length_ofDatum : (Value.ofDatum d).length? = d.elems.map List.length := by
  induction d with
  | pair a d _ ih =>
    rw [Value.ofDatum, Value.length?, ih, Datum.elems, Option.map_map, Option.map_map]
    rfl
  | _ => rfl

theorem properListLength_form {k : Option Nat → ML α} (hv : s.Form d v) :
    (properListLength v >>= k) s = k (d.elems.map List.length) s := by
  have hstands : s.Stands [] (.ofDatum d) v := hv.stands
  rw [properListLength_stands hstands, length_ofDatum]

theorem properListLength_list {k : Option Nat → ML α} (hv : s.Form (.list es .nil) v) :
    (properListLength v >>= k) s = k (some es.length) s := by
  rw [properListLength_form hv, Datum.elems_list]
  rfl

/-- A symbol as a form. -/
theorem State.Form.sym {name : Bytes} (hv : s.Form (.sym name) v) : s.Stands fs (.sym name) v := hv

theorem mlIsSym_form (hv : s.Form d v) : mlIsSym v = true ↔ ∃ name, d = .sym name := by
  cases d with
  | sym name =>
    obtain ⟨i, rfl, -⟩ := hv
    exact ⟨fun _ => ⟨name, rfl⟩, fun _ => rfl⟩
  | fix x =>
    rw [hv.2]
    simp [mlMakeFix, mlIsSym]
  | nil =>
    cases hv
    simp [mlIsSym]
  | bool b =>
    cases hv
    cases b <;> simp [mlIsSym, mlMakeBool]
  | str bytes =>
    obtain ⟨a, rfl, -⟩ := hv
    simp [mlIsSym]
  | pair a d =>
    obtain ⟨x, p, q, rfl, -⟩ := hv
    simp [mlIsSym]

/-- The test of a binding of a `let`. -/
theorem bindingOk_form {k : Bool → ML α} (hv : s.Form d v) : (bindingOk v >>= k) s = k d.binding.isSome s := by
  unfold bindingOk
  rw [bind_assoc, mlIsPair_form hv]
  cases d with
  | pair a d =>
    obtain ⟨p, q, ho, hp, hq⟩ := hv.pair
    simp only [Value.ofDatum, Value.isPair, Bool.not_true, Bool.false_eq_true, if_false, bind_assoc]
    rw [cdr_run ho, mlIsPair_form hq]
    cases d with
    | pair init d =>
      obtain ⟨p', q', ho', -, hq'⟩ := hq.pair
      simp only [Value.ofDatum, Value.isPair, Bool.not_true, Bool.false_eq_true, if_false, bind_assoc]
      rw [cdr_run ho, cdr_run ho']
      by_cases hd : d = .nil
      · subst hd
        rw [if_neg fun hne => hne ((form_nil hq').2 rfl), bind_assoc, car_run ho, pure_bind_run]
        by_cases hsym : mlIsSym p = true
        · obtain ⟨name, rfl⟩ := (mlIsSym_form hp).1 hsym
          rw [hsym]
          rfl
        · rw [Bool.eq_false_iff.2 hsym]
          cases a with
          | sym name => exact absurd ((mlIsSym_form hp).2 ⟨name, rfl⟩) hsym
          | _ => rfl
      · rw [if_pos fun hq => hd ((form_nil hq').1 hq)]
        have hbinding : (Datum.pair a (.pair init d)).binding = none := by
          cases a <;> cases d <;> first | rfl | exact absurd rfl hd
        rw [hbinding]
        exact pure_bind_run
    | _ => cases a <;> exact pure_bind_run
  | _ => exact pure_bind_run

theorem Datum.eq_binding {name : Bytes} {init : Datum} (h : d.binding = some (name, init)) :
    d = .pair (.sym name) (.pair init .nil) := by
  unfold Datum.binding at h
  split at h <;> cases h
  rfl

theorem raise_bind {β : Type} {line column : Nat} {message : Bytes} {e : Status} {k : α → ML β} :
    ((raise line column message e : ML α) >>= k) s = (raise line column message e : ML β) s := rfl

/-- What `closure_arity` makes of a parameter list. -/
theorem closureArityLoop_form (hv : s.Form d v) : ∃ message, ∀ (bound : Nat) (n : UInt32) (k : UInt32 × Bool → ML α),
    d.cells < bound → (closureArityLoop bound v n >>= k) s = (match d.params with
      | none => raise 0 0 message .errSyntax
      | some p => k (n + .ofNat p.1.length, p.2.isSome) : ML α) s := by
  induction d generalizing v with
  | pair a d _ ih =>
    obtain ⟨p, q, ho, hp, hq⟩ := hv.pair
    by_cases hsym : mlIsSym p = true
    · obtain ⟨name, rfl⟩ := (mlIsSym_form hp).1 hsym
      obtain ⟨message, hloop⟩ := ih hq
      refine ⟨message, ?_⟩
      intro bound n k hb
      obtain ⟨bound, rfl⟩ := Nat.exists_eq_add_of_lt hb
      have hlt : d.cells < (Datum.pair (.sym name) d).cells + bound := by
        rw [Datum.cells]
        omega
      unfold closureArityLoop
      rw [bind_assoc, mlIsPair_run ho]
      simp only [if_true, bind_assoc]
      rw [car_run ho]
      simp only [hsym, Bool.not_true, Bool.false_eq_true, if_false, bind_assoc]
      rw [cdr_run ho, hloop _ _ _ hlt, Datum.params]
      cases d.params with
      | none => rfl
      | some p =>
        show k (n + 1 + .ofNat p.1.length, _) s = k (n + .ofNat (p.1.length + 1), _) s
        rw [UInt32.ofNat_add, UInt32.add_assoc, UInt32.add_comm 1]
        rfl
    · have hparams : (Datum.pair a d).params = none := by
        cases a with
        | sym name => exact absurd ((mlIsSym_form hp).2 ⟨name, rfl⟩) hsym
        | _ => rfl
      refine ⟨ascii "lambda parameter must be a symbol", ?_⟩
      intro bound n k hb
      obtain ⟨bound, rfl⟩ := Nat.exists_eq_add_of_lt hb
      unfold closureArityLoop
      rw [bind_assoc, mlIsPair_run ho, hparams]
      simp only [if_true, bind_assoc]
      rw [car_run ho]
      simp only [hsym, Bool.not_false, if_true]
      rfl
  | _ =>
    refine ⟨ascii "lambda parameter list is malformed", ?_⟩
    intro bound n k hb
    obtain ⟨bound, rfl⟩ := Nat.exists_eq_add_of_lt hb
    unfold closureArityLoop
    rw [bind_assoc, mlIsPair_form hv]
    have hnil := form_nil hv
    have hsym := mlIsSym_form hv
    simp_all [Datum.params, Value.isPair, Value.ofDatum, raise_bind, pure_bind_run]

end Data

/-! ## Rules -/

/-- Forms in environments: what `rev` does, `ev` says. -/
def TellsAll (ev : Datum → List Nat → Sem Value) (rev : Val → Val → ML Val) : Prop :=
  ∀ (fs : List Nat) (w : World) (s : State) (d : Datum) (v : Val) (env : List Nat) (e : Val), s.Form d v →
    s.heap.Chain fs env e →
    Tells State.Stands (ev d env) (rev v e) fs w s

theorem State.Stands.truthy {fs : List Nat} {x : Value} {v : Val} {s : State} (h : s.Stands fs x v) :
    x.truthy = mlTruthy v :=
  Heap.Stands.truthy h

section Rules
variable {fs : List Nat} {w : World} {s : State} {v e : Val} {es : List Datum} {env : List Nat}
    {ev : Datum → List Nat → Sem Value}
  {rev : Val → Val → ML Val} {d : Datum}

theorem quote_tells (hv : s.Form (.list es .nil) v) : Tells State.Stands (quote es) (refQuote v) fs w s := by
  have hrun : refQuote v s = (if some es.length ≠ some 1 then fail .errSyntax else car v : ML Val) s := by
    unfold refQuote
    rw [properListLength_list hv]
  refine .run hrun ?_
  match es with
  | [d] =>
    obtain ⟨p, q, ho, hp, -⟩ := hv.pair
    rw [if_neg (by simp)]
    have hcar : car v s = (pure p : ML Val) s := by
      have h := car_run (k := pure) ho
      rwa [bind_pure] at h
    exact .run hcar (tells_pure fun _ => hp.stands)
  | [] => exact tells_fail
  | _ :: _ :: _ =>
    rw [if_pos (by simp)]
    exact tells_fail

section Procedures
variable {c : Config} (hc : ∀ n size, c.alloc n size = true) (hd : ∀ s, c.collectDue s = false)
include hc hd

theorem makeProcedure_tells {pd : Datum} {params : Val} (hp : s.Form pd params) (hv : s.Form (.list es .nil) v)
    (hchain : s.heap.Chain fs env e) :
    Tells State.Stands (makeProcedure pd es env) (refClosure c params v e) fs w s := by
  obtain ⟨message, hloop⟩ := closureArityLoop_form (α := Val) hp
  obtain ⟨w', hspine, hends⟩ := Heap.Shows.spine hp
  have hrun : refClosure c params v e s = (match pd.params with
      | none => raise 0 0 message .errSyntax
      | some p => mlGcAllocClosure c e params v p.2.isSome (.ofNat p.1.length) : ML Val) s := by
    unfold refClosure closureArity walkBound
    rw [bind_assoc, gets_bind_run, hloop _ _ _ (Nat.lt_succ_of_lt (hspine.lt_next hends))]
    simp only [UInt32.zero_add]
  refine .run hrun ?_
  unfold makeProcedure
  cases hparams : pd.params with
  | none => exact raise_tells
  | some p =>
    obtain ⟨names, rest⟩ := p
    dsimp only
    split
    · rename_i hlt
      apply gcAlloc_tells hc hd (by decide)
      intro v' t hon ho
      refine ⟨⟨e, params, v, rest.isSome, .ofNat names.length⟩, ho, hchain.onward hon, ?_,
        State.Form.later hv hon, rfl, ?_⟩
      · rw [← Datum.eq_parameters hparams]
        exact hp.later hon
      · exact UInt32.toNat_ofNat_of_lt' hlt
    · exact tells_unspecified

theorem lambdaForm_tells (hv : s.Form (.list es .nil) v) (hchain : s.heap.Chain fs env e) :
    Tells State.Stands (lambdaForm env es) (refLambda c v e) fs w s := by
  have hbad : es.length < 2 → Tells State.Stands (fail .errSyntax : Sem Value) (refLambda c v e) fs w s := by
    intro hlt
    apply tells_fails
    unfold refLambda
    rw [properListLength_list hv]
    simp only [Option.all_some, hlt, decide_true, if_true]
  match es with
  | pd :: d :: ds =>
    obtain ⟨p, q, ho, hp, hq⟩ := hv.pair
    have hrun : refLambda c v e s =
        (if !(Value.ofDatum pd).isPair && decide (p ≠ mvNil) && !mlIsSym p then fail .errSyntax
        else refClosure c p q e : ML Val) s := by
      unfold refLambda
      rw [properListLength_list hv]
      have hlen : ¬ (pd :: d :: ds).length < 2 := by simp
      simp only [Option.all_some, hlen, decide_false, Bool.false_eq_true, if_false]
      rw [car_run ho, cdr_run ho, mlIsPair_form hp]
    refine .run hrun ?_
    split
    · rename_i hother
      have hparams : pd.params = none := by
        have hnil := form_nil hp
        have hsym := mlIsSym_form hp
        cases pd <;> simp_all [Value.isPair, Value.ofDatum, Datum.params]
      simp only [lambdaForm, makeProcedure, hparams]
      exact tells_fail
    · exact makeProcedure_tells hc hd hp hq hchain
  | [] => exact hbad (by simp)
  | [_] => exact hbad (by simp)

end Procedures

variable (hev : TellsAll ev rev)
include hev

/-! ### Definitions -/

section Definitions
variable {c : Config} (hc : ∀ n size, c.alloc n size = true) (hd : ∀ s, c.collectDue s = false)

theorem setForm_tells (hv : s.Form (.list es .nil) v) (hchain : s.heap.Chain fs env e) :
    Tells State.Stands (setForm ev env es) (refSet rev v e) fs w s := by
  have hbad : es.length ≠ 2 → Tells State.Stands (setForm ev env es) (refSet rev v e) fs w s := by
    intro hlen
    have hleft : setForm ev env es = fail .errSyntax := by
      unfold setForm
      split
      · exact absurd rfl hlen
      · rfl
    rw [hleft]
    apply tells_fails
    unfold refSet
    rw [properListLength_list hv]
    simp only [ne_eq, Option.some.injEq, hlen, not_false_eq_true, if_true]
  match es with
  | [name, init] =>
    obtain ⟨p, q, ho, hp, hq⟩ := hv.pair
    obtain ⟨p', q', ho', hp', -⟩ := hq.pair
    have hrun : refSet rev v e s = (if !mlIsSym p then fail .errSyntax else do
        let value ← rev p' e
        mlEnvSet e p value
        pure mvUndef : ML Val) s := by
      unfold refSet
      rw [properListLength_list hv]
      simp only [List.length_cons, List.length_nil, Nat.zero_add, Nat.reduceAdd, ne_eq, not_true_eq_false, if_false]
      rw [car_run ho]
      split
      · rfl
      · rw [cdr_run ho, car_run ho']
    refine .run hrun ?_
    by_cases hsym : mlIsSym p = true
    · obtain ⟨name, rfl⟩ := (mlIsSym_form hp).1 hsym
      rw [hsym]
      apply Tells.bind (hev _ _ _ _ _ _ _ hp' hchain)
      intro fs' x value w' s' hon hx
      apply (assign_tells (hchain.onward hon) (hp.later hon).sym hx).bind
      exact fun _ _ _ _ _ _ _ => tells_pure fun _ => rfl
    · rw [Bool.eq_false_iff.2 hsym]
      cases name with
      | sym name => exact absurd ((mlIsSym_form hp).2 ⟨name, rfl⟩) hsym
      | _ => exact tells_fail
  | [] => exact hbad (by simp)
  | [_] => exact hbad (by simp)
  | _ :: _ :: _ :: _ => exact hbad (by simp)

include hc hd

theorem defineForm_tells (hv : s.Form (.list es .nil) v) (hchain : s.heap.Chain fs env e) :
    Tells State.Stands (defineForm ev env es) (refDefine c rev v e) fs w s := by
  have hbad : es.length < 2 → Tells State.Stands (defineForm ev env es) (refDefine c rev v e) fs w s := by
    intro hlt
    have hleft : defineForm ev env es = fail .errSyntax := by
      unfold defineForm
      split
      · exact absurd hlt (by simp)
      · exact absurd hlt (by simp)
      · rfl
    rw [hleft]
    apply tells_fails
    unfold refDefine
    rw [properListLength_list hv]
    simp only [Option.all_some, hlt, decide_true, if_true]
  -- a shorter form is refused before anything is looked at
  match es with
  | first :: init :: more =>
    obtain ⟨p, q, ho, hp, hq⟩ := hv.pair
    obtain ⟨p', q', ho', hp', hq'⟩ := hq.pair
    have hrun : refDefine c rev v e s = (if mlIsSym p then
        if some (first :: init :: more).length ≠ some 2 then fail .errSyntax else do
          let value ← rev p' e
          mlEnvDefine c e p value
          pure mvUndef
      else do
        if ← mlIsPair p then
          let name ← car p
          if !mlIsSym name then
            fail .errSyntax
          else
            let params ← cdr p
            let value ← refClosure c params q e
            mlEnvDefine c e name value
            pure mvUndef
        else
          fail .errSyntax : ML Val) s := by
      unfold refDefine
      rw [properListLength_list hv]
      have hlen : ¬ (first :: init :: more).length < 2 := by simp
      simp only [Option.all_some, hlen, decide_false, Bool.false_eq_true, if_false]
      rw [car_run ho, cdr_run ho]
      split
      · split
        · rfl
        · rw [car_run ho']
      · rfl
    refine .run hrun ?_
    cases first with
    -- `(define name init)`
    | sym name =>
      rw [if_pos ((mlIsSym_form hp).2 ⟨name, rfl⟩)]
      cases more with
      | nil =>
        rw [if_neg (by simp)]
        apply Tells.bind (hev _ _ _ _ _ _ _ hp' hchain)
        intro fs' x value w' s' hon hx
        apply (define_tells hc (hchain.onward hon) (hp.later hon).sym hx).bind
        exact fun _ _ _ _ _ _ _ => tells_pure fun _ => rfl
      | cons =>
        rw [if_pos (by simp)]
        exact tells_fail
    -- `(define (name . params) body ...)`
    | pair head params =>
      obtain ⟨n, ps, ho'', hn, hps⟩ := hp.pair
      rw [if_neg fun hsym => by simpa using (mlIsSym_form hp).1 hsym]
      refine .run (mlIsPair_run ho'') ?_
      rw [if_pos rfl]
      refine .run (car_run ho'') ?_
      cases head with
      | sym name =>
        rw [(mlIsSym_form hn).2 ⟨name, rfl⟩]
        refine .run (cdr_run ho'') ?_
        apply Tells.bind (makeProcedure_tells hc hd hps hq hchain)
        intro fs' x value w' s' hon hx
        apply (define_tells hc (hchain.onward hon) (hn.later hon).sym hx).bind
        exact fun _ _ _ _ _ _ _ => tells_pure fun _ => rfl
      | _ =>
        rw [if_pos (by simpa using mt (mlIsSym_form hn).1 (by simp))]
        exact tells_fail
    | _ =>
      rw [if_neg (mt (mlIsSym_form hp).1 (by simp))]
      refine .run (mlIsPair_form hp) ?_
      exact tells_fail
  | [] => exact hbad (by simp)
  | [_] => exact hbad (by simp)

end Definitions

theorem sequence_tells (hv : s.Form (.list es .nil) v) (hne : es ≠ []) (hchain : s.heap.Chain fs env e) :
    Tells State.Stands (sequence ev env es) (refSequence rev e es.length v) fs w s := by
  induction es generalizing v fs w s with
  | nil => exact absurd rfl hne
  | cons d es ih =>
    obtain ⟨p, q, ho, hp, hq⟩ := hv.pair
    have hq' : s.Stands fs (.ofDatum (.list es .nil)) q := hq.stands
    have hrun : refSequence rev e (d :: es).length v s = (if (Value.ofDatum (.list es .nil)).isPair then do
        let _ ← rev p e
        let rest ← cdr v
        refSequence rev e es.length rest
      else rev p e : ML Val) s := by
      rw [List.length_cons]
      conv_lhs => unfold refSequence
      rw [cdr_run ho, mlIsPair_stands hq']
      split
      · rw [car_run ho]
      · rw [car_run ho]
    refine .run hrun ?_
    cases es with
    | nil => exact hev _ _ _ _ _ _ _ hp hchain
    | cons d' es =>
      apply (hev _ _ _ _ _ _ _ hp hchain).bind
      intro fs' _ _ w' s' hon _
      have ho' : s'.heap.Has v (.pair p q) := hon.heap.has_eq Val.in_all ho rfl
      exact .run (cdr_run ho') (ih (hq.later hon) (by simp) (hchain.onward hon))

theorem body_tells (hv : s.Form d v) (hchain : s.heap.Chain fs env e) :
    Tells State.Stands (body ev env d) (refBegin rev v e) fs w s := by
  by_cases hnil : d = .nil
  · subst hnil
    have hrun : refBegin rev v e s = (pure mvUndef : ML Val) s := by
      unfold refBegin
      rw [if_pos ((form_nil hv).2 rfl)]
    exact .run hrun (tells_pure fun _ => rfl)
  · have hrun : refBegin rev v e s =
        (d.elems.map List.length).elim (fail .errSyntax : ML Val) (fun n => refSequence rev e n v) s := by
      unfold refBegin
      rw [if_neg fun h => hnil ((form_nil hv).1 h), properListLength_form hv]
      cases d.elems <;> rfl
    refine .run hrun ?_
    unfold body
    cases helems : d.elems with
    | none => exact tells_fail
    | some es =>
      obtain rfl := Datum.eq_list helems
      apply sequence_tells hev hv _ hchain
      rintro rfl
      exact hnil rfl

theorem begin_tells (hv : s.Form (.list es .nil) v) (hchain : s.heap.Chain fs env e) :
    Tells State.Stands (sequence ev env es) (refBegin rev v e) fs w s := by
  have h := body_tells (w := w) hev hv hchain
  unfold body at h
  rwa [Datum.elems_list] at h

theorem ifForm_tells (hv : s.Form (.list es .nil) v) (hchain : s.heap.Chain fs env e) :
    Tells State.Stands (ifForm ev env es) (refIf rev v e) fs w s := by
  have hbad : es.length ≠ 2 → es.length ≠ 3 → Tells State.Stands (fail .errSyntax : Sem Value)
      (refIf rev v e) fs w s := by
    intro htwo hthree
    apply tells_fails
    unfold refIf
    rw [properListLength_list hv]
    simp only [ne_eq, Option.some.injEq, htwo, hthree, not_false_eq_true, and_self, if_true]
  match es with
  | [t, a] =>
    obtain ⟨p, q, ho, hp, hq⟩ := hv.pair
    obtain ⟨p', q', ho', hp', -⟩ := hq.pair
    have hrun : refIf rev v e s = (do
        let x ← rev p e
        if mlTruthy x then rev p' e else pure mvUndef : ML Val) s := by
      unfold refIf
      rw [properListLength_list hv]
      simp only [List.length_cons, List.length_nil, Nat.zero_add, Nat.reduceAdd, ne_eq, not_true_eq_false,
        false_and, if_false]
      rw [car_run ho, cdr_run ho, car_run ho']
      rfl
    refine .run hrun (Tells.bind (hev _ _ _ _ _ _ _ hp hchain) ?_)
    intro fs' x b w' s' hon hx
    refine .ite (by rw [hx.truthy]) (fun _ => ?_) fun _ => tells_pure fun _ => rfl
    exact hev _ _ _ _ _ _ _ (hp'.later hon) (hchain.onward hon)
  | [t, a, a'] =>
    obtain ⟨p, q, ho, hp, hq⟩ := hv.pair
    obtain ⟨p', q', ho', hp', hq'⟩ := hq.pair
    obtain ⟨p'', q'', ho'', hp'', -⟩ := hq'.pair
    have hrun : refIf rev v e s = (do
        let x ← rev p e
        if mlTruthy x then rev p' e else rev p'' e : ML Val) s := by
      unfold refIf
      rw [properListLength_list hv]
      simp only [List.length_cons, List.length_nil, Nat.zero_add, Nat.reduceAdd, ne_eq, Option.some.injEq,
        Nat.reduceEqDiff,
        not_true_eq_false, and_false, if_false, if_true]
      rw [car_run ho, cdr_run ho, car_run ho', cdr_run ho', car_run ho'']
    refine .run hrun (Tells.bind (hev _ _ _ _ _ _ _ hp hchain) ?_)
    intro fs' x b w' s' hon hx
    refine .ite (by rw [hx.truthy]) (fun _ => ?_) fun _ => ?_
    · exact hev _ _ _ _ _ _ _ (hp'.later hon) (hchain.onward hon)
    · exact hev _ _ _ _ _ _ _ (hp''.later hon) (hchain.onward hon)
  | [] => exact hbad (by simp) (by simp)
  | [_] => exact hbad (by simp) (by simp)
  | _ :: _ :: _ :: _ :: _ => exact hbad (by simp) (by simp)

/-! ### Bindings -/

section Scopes
variable {c : Config} (hc : ∀ n size, c.alloc n size = true) {k : Nat} {inner initEnv : Val} {ienv : List Nat}
include hc

omit hev in
theorem predefine_tells (hv : s.Form (.list es .nil) v) (hchain : s.heap.Chain fs (k :: env) inner) :
    Tells (fun _ _ _ _ => True) (predefine (k :: env) es) (refPredefine c inner (es.length + 1) v) fs w s := by
  induction es generalizing v fs w s with
  | nil =>
    cases (form_nil hv).2 rfl
    unfold refPredefine
    exact .run mlIsPair_nil (tells_pure fun _ => trivial)
  | cons d ds ih =>
    obtain ⟨p, q, ho, hp, hq⟩ := hv.pair
    unfold refPredefine predefine
    refine .run (mlIsPair_run ho) ?_
    rw [if_pos rfl]
    refine .run (car_run ho) (.run (bindingOk_form hp) ?_)
    cases hbinding : d.binding with
    | none => exact tells_fail
    | some b =>
      obtain rfl := Datum.eq_binding hbinding
      obtain ⟨n, rest, ho', hn, -⟩ := hp.pair
      refine .run (car_run ho') ?_
      have hundef : s.Stands fs .undef mvUndef := rfl
      apply (define_tells hc hchain hn.sym hundef).bind
      intro fs' _ _ w' s' hon _
      exact .run (cdr_run (hon.heap.has_eq Val.in_all ho rfl)) (ih (hq.later hon) (hchain.onward hon))

theorem bindEach_tells (hv : s.Form (.list es .nil) v) (hinner : s.heap.Chain fs (k :: env) inner)
    (hinit : s.heap.Chain fs ienv initEnv) :
    Tells (fun _ _ _ _ => True) (bindEach ev (k :: env) ienv es)
      (refBindings c rev inner initEnv (es.length + 1) v) fs w s := by
  induction es generalizing v fs w s with
  | nil =>
    cases (form_nil hv).2 rfl
    unfold refBindings
    exact .run mlIsPair_nil (tells_pure fun _ => trivial)
  | cons d ds ih =>
    obtain ⟨p, q, ho, hp, hq⟩ := hv.pair
    unfold refBindings bindEach
    refine .run (mlIsPair_run ho) ?_
    rw [if_pos rfl]
    refine .run (car_run ho) (.run (bindingOk_form hp) ?_)
    cases hbinding : d.binding with
    | none => exact tells_fail
    | some b =>
      obtain rfl := Datum.eq_binding hbinding
      obtain ⟨n, rest, ho', hn, hrest⟩ := hp.pair
      obtain ⟨init, _, ho'', hi, -⟩ := hrest.pair
      refine .run (car_run ho') (.run (cdr_run ho') (.run (car_run ho'') ?_))
      apply Tells.bind (hev _ _ _ _ _ _ _ hi hinit)
      intro fs' x value w' s' hon hx
      apply (define_tells hc (hinner.onward hon) (hn.later hon).sym hx).bind
      intro fs'' _ _ w'' s'' hon' _
      have hlater := hon.trans hon'
      exact .run (cdr_run (hlater.heap.has_eq Val.in_all ho rfl))
        (ih (hq.later hlater) (hinner.onward hlater) (hinit.onward hlater))

theorem letForm_tells (hd : ∀ s, c.collectDue s = false) {starlike recursive : Bool} (hv : s.Form (.list es .nil) v)
    (hchain : s.heap.Chain fs env e) :
    Tells State.Stands (letForm ev starlike recursive env es) (refLet c rev v e starlike recursive) fs w s := by
  have hbad : es.length < 2 → Tells State.Stands (letForm ev starlike recursive env es)
      (refLet c rev v e starlike recursive) fs w s := by
    intro hlt
    have hleft : letForm ev starlike recursive env es = fail .errSyntax := by
      unfold letForm
      split
      · exact absurd hlt (by simp)
      · rfl
    rw [hleft]
    apply tells_fails
    unfold refLet
    rw [properListLength_list hv]
    simp only [Option.all_some, hlt, decide_true, if_true]
  match es with
  | bs :: d :: ds =>
    obtain ⟨p, q, ho, hp, hq⟩ := hv.pair
    have hrun : refLet c rev v e starlike recursive s = (bs.elems.map List.length).elim (fail .errSyntax : ML Val)
        (fun count => do
          let inner ← mlGcAllocEnv c e
          if recursive then
            refPredefine c inner (count + 1) p
          refBindings c rev inner (if starlike then inner else if recursive then inner else e) (count + 1) p
          refBegin rev q inner) s := by
      unfold refLet
      rw [properListLength_list hv]
      have hlen : ¬ (bs :: d :: ds).length < 2 := by simp
      simp only [Option.all_some, hlen, decide_false, Bool.false_eq_true, if_false]
      rw [car_run ho, cdr_run ho, properListLength_form hp]
      cases bs.elems <;> rfl
    refine .run hrun ?_
    cases helems : bs.elems with
    | none =>
      simp only [letForm, helems, Option.map_none, Option.elim_none]
      exact tells_fail
    | some es =>
      simp only [letForm, helems, Option.map_some, Option.elim_some]
      have hp' : s.Form (.list es .nil) p := Datum.eq_list helems ▸ hp
      apply (newFrame_tells hc hd hchain).bind
      intro fs' k inner w' s' hon hinner
      -- what follows the first pass of a `letrec`
      have hrest : ∀ fs'' w'' s'', Onward fs' s' fs'' s'' → Tells State.Stands
          (do bindEach ev (k :: env) (if starlike then k :: env else if recursive then k :: env else env) es
              sequence ev (k :: env) (d :: ds) : Sem Value)
          (do refBindings c rev inner (if starlike then inner else if recursive then inner else e) (es.length + 1) p
              refBegin rev q inner : ML Val) fs'' w'' s'' := by
        intro fs'' w'' s'' hon'
        have hlater := hon.trans hon'
        have hinit : s''.heap.Chain fs'' (if starlike then k :: env else if recursive then k :: env else env)
            (if starlike then inner else if recursive then inner else e) := by
          split
          · exact hinner.onward hon'
          · split
            · exact hinner.onward hon'
            · exact hchain.onward hlater
        apply (bindEach_tells hev hc (hp'.later hlater) (hinner.onward hon') hinit).bind
        intro fs₃ _ _ w₃ s₃ hon'' _
        exact begin_tells hev (hq.later (hlater.trans hon'')) ((hinner.onward hon').onward hon'')
      apply Corresponds.ite Iff.rfl
      · intro _
        apply (predefine_tells hc (hp'.later hon) hinner).bind
        exact fun fs'' _ _ w'' s'' hon' _ => hrest fs'' w'' s'' hon'
      · exact fun _ => hrest fs' w' s' .refl
  | [] => exact hbad (by simp)
  | [_] => exact hbad (by simp)

end Scopes

/-! ### Conditionals -/

theorem andOr_tells {isOr : Bool} (hv : s.Form (.list es .nil) v) (hchain : s.heap.Chain fs env e) :
    Tells State.Stands (andOr ev isOr env es) (refAndOr rev v e isOr) fs w s := by
  have hloop : ∀ (es : List Datum) (v : Val) (fs : List Nat) (w : World) (s : State), es ≠ [] →
      s.Form (.list es .nil) v →
      s.heap.Chain fs env e → Tells State.Stands (andOr ev isOr env es)
        (refAndOrLoop rev e isOr es.length v) fs w s := by
    intro es
    induction es with
    | nil => exact fun _ _ _ _ h => absurd rfl h
    | cons d ds ih =>
      intro v fs w s _ hv hchain
      obtain ⟨p, q, ho, hp, hq⟩ := hv.pair
      rw [List.length_cons]
      unfold refAndOrLoop
      refine .run (cdr_run ho) (.run (mlIsPair_form hq) ?_)
      cases ds with
      | nil => exact .run (car_run ho) (hev _ _ _ _ _ _ _ hp hchain)
      | cons d' ds =>
        refine .run (car_run ho) ?_
        apply Tells.bind (hev _ _ _ _ _ _ _ hp hchain)
        intro fs' x b w' s' hon hx
        refine .ite ?_ (fun _ => tells_pure fun _ => hx) fun _ => ?_
        · rw [hx.truthy]
          cases isOr <;> cases mlTruthy b <;> decide
        · exact .run (cdr_run (hon.heap.has_eq Val.in_all ho rfl))
            (ih q fs' w' s' (by simp) (hq.later hon) (hchain.onward hon))
  cases es with
  | nil =>
    cases (form_nil hv).2 rfl
    exact tells_pure fun _ => by cases isOr <;> rfl
  | cons d ds =>
    have hrun : refAndOr rev v e isOr s = refAndOrLoop rev e isOr (d :: ds).length v s := by
      unfold refAndOr
      rw [if_neg fun h => absurd ((form_nil hv).1 h) (by simp [Datum.list]), properListLength_list hv]
    exact .run hrun (hloop _ _ _ _ _ (by simp) hv hchain)

section Cond
variable {c : Config} (hnames : c.names = Config.created.names)
include hnames

omit hev in
theorem keyword_stands (hI : s.Depicts fs w) {name : String} {v : Val} (h : (name, v) ∈ specialForms.zip c.names) :
    s.Stands fs (.sym (ascii name)) v := by
  have hfind : ∀ i : UInt32, (specialForms.map ascii).findIdx? (fun e => e == ascii name) = some i.toNat →
      s.Stands fs (.sym (ascii name)) (.sym i) := by
    intro i hi
    obtain ⟨more, hmore⟩ := hI.names
    refine ⟨i, rfl, ?_⟩
    rw [← hmore, List.findIdx?_append, hi]
    rfl
  rw [hnames] at h
  simp only [specialForms, Config.names, Config.created, List.zip_cons_cons, List.zip_nil_left,
    List.mem_cons, Prod.mk.injEq,
    List.not_mem_nil, or_false] at h
  rcases h with ⟨rfl, rfl⟩ | ⟨rfl, rfl⟩ | ⟨rfl, rfl⟩ | ⟨rfl, rfl⟩ | ⟨rfl, rfl⟩ | ⟨rfl, rfl⟩ | ⟨rfl, rfl⟩ |
    ⟨rfl, rfl⟩ | ⟨rfl, rfl⟩ |
    ⟨rfl, rfl⟩ | ⟨rfl, rfl⟩ | ⟨rfl, rfl⟩ | ⟨rfl, rfl⟩ <;> exact hfind _ (by decide)

omit hev in
theorem form_else (hI : s.Depicts fs w) (hv : s.Form d v) : d = .sym (ascii "else") ↔ v = c.symElse := by
  have helse : s.Stands fs (.sym (ascii "else")) c.symElse :=
    keyword_stands hnames hI (by simp [specialForms, Config.names])
  cases d with
  | sym name => exact (Datum.sym.injEq _ _).to_iff.trans (Heap.stands_sym_iff hv.sym helse)
  | _ =>
    refine ⟨(fun h => by cases h), ?_⟩
    rintro rfl
    have hsym := (mlIsSym_form hv).1 (mlIsSym_stands helse)
    simp at hsym

theorem cond_tells (hv : s.Form (.list es .nil) v) (hchain : s.heap.Chain fs env e) :
    Tells State.Stands (Language.cond ev env es) (refCond c rev v e) fs w s := by
  have hloop : ∀ (es : List Datum) (v : Val) (fs : List Nat) (w : World) (s : State), s.Form (.list es .nil) v →
      s.heap.Chain fs env e → Tells State.Stands (Language.cond ev env es)
        (refCondLoop c rev e (es.length + 1) v) fs w s := by
    intro es
    induction es with
    | nil =>
      intro v fs w s hv _
      cases (form_nil hv).2 rfl
      unfold refCondLoop
      exact .run mlIsPair_nil (tells_pure fun _ => rfl)
    | cons clause clauses ih =>
      intro v fs w s hv hchain
      apply Corresponds.given
      intro hI
      obtain ⟨p, q, ho, hp, hq⟩ := hv.pair
      unfold refCondLoop
      refine .run (mlIsPair_run ho) ?_
      rw [if_pos rfl]
      refine .run (car_run ho) (.run (mlIsPair_form hp) ?_)
      cases clause with
      | pair test forms =>
        obtain ⟨t, b, ho', ht, hb⟩ := hp.pair
        refine .run (car_run ho') (.run (cdr_run ho') ?_)
        unfold Language.cond
        refine .ite (form_else hnames hI ht) (fun _ => body_tells hev hb hchain) fun _ => ?_
        apply Tells.bind (hev _ _ _ _ _ _ _ ht hchain)
        intro fs' x y w' s' hon hx
        refine .ite (by rw [hx.truthy]) (fun _ => ?_) fun _ => ?_
        · refine .ite (form_nil hb).symm (fun _ => tells_pure fun _ => hx) fun _ => ?_
          exact body_tells hev (hb.later hon) (hchain.onward hon)
        · exact .run (cdr_run (hon.heap.has_eq Val.in_all ho rfl)) (ih q fs' w' s' (hq.later hon) (hchain.onward hon))
      | _ => exact tells_fail
  have hrun : refCond c rev v e s = refCondLoop c rev e (es.length + 1) v s := by
    unfold refCond
    rw [properListLength_list hv]
  exact .run hrun (hloop es v fs w s hv hchain)

end Cond

end Rules

end Microlisp
