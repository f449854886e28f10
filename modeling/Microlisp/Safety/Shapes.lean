import Microlisp.Lists
import Microlisp.Safety.Eval
/-!
# No malformed form gets the evaluator stuck

A run from a well-formed state with collections disabled is never stuck, and every
state it reaches is well-formed. The count of a closure's parameters is a
`uint32_t`: it is the number of cells of the parameter list exactly when that
number fits.
-/
namespace Microlisp

open Prog

section Arity
variable {h : Heap} {v : Val} {b b' : Bool} {n m : Nat} {s : State} {c : Config}

/-- As many symbol cells as the closure says it has parameters. -/
def Closure.Exact (h : Heap) (cl : Closure) : Prop := h.Params cl.params cl.variadic cl.arityMin.toNat

/-- A parameter list is a list that ends. -/
theorem Heap.Params.spine (hp : h.Params v b n) : ∃ w, h.Spine v n w ∧ h.Ends w := by
  induction hp with
  | nil => exact ⟨mvNil, .nil, Heap.ends_of_imm⟩
  | @rest i => exact ⟨.sym i, .nil, Heap.ends_of_sym⟩
  | cons ho _ ih =>
    obtain ⟨w, hs, hw⟩ := ih
    exact ⟨w, .cons ho hs, hw⟩

theorem Heap.Params.unique (hp : h.Params v b n) (hp' : h.Params v b' m) : n = m := by
  induction hp generalizing m with
  | nil =>
    cases hp' with
    | nil => rfl
    | cons ho _ => exact absurd ho (Heap.ends_of_imm _ _)
  | rest =>
    cases hp' with
    | rest => rfl
    | cons ho _ => exact absurd ho (Heap.ends_of_sym _ _)
  | cons ho _ ih =>
    cases hp' with
    | nil => exact absurd ho (Heap.ends_of_imm _ _)
    | rest => exact absurd ho (Heap.ends_of_sym _ _)
    | cons ho' hp' =>
      cases ho.unique ho'
      rw [ih hp']

/-- Without a rest parameter the list is `()` or a pair. -/
theorem Heap.Params.proper (hp : h.Params v false n) : v = mvNil ∨ ∃ x : Val × Val, h.Has v (.pair x.1 x.2) := by
  cases hp with
  | nil => exact .inl rfl
  | cons ho _ => exact .inr ⟨(_, _), ho⟩

/-- The count is exact when it fits a `uint32_t`. -/
theorem State.WellFormed.exact_iff (hs : s.WellFormed c) {a : Nat} {cl : Closure} (ha : s.heap.get a = some cl.obj) :
    cl.Exact s.heap ↔ ∃ k < 2 ^ 32, s.heap.Params cl.params cl.variadic k := by
  obtain ⟨-, -, ⟨n, hn, harity⟩, -, -⟩ : s.heap.ObjOk cl.obj := hs.objs a _ ha
  constructor
  · exact fun he => ⟨_, cl.arityMin.toNat_lt, he⟩
  · rintro ⟨k, hk, hp⟩
    obtain rfl := hn.unique hp
    rwa [Closure.Exact, harity, UInt32.toNat_ofNat', Nat.mod_eq_of_lt hk]

end Arity

/-- Runs with collections disabled, which must not see an unknown tag. -/
def Mode.steady : Mode Event := ⟨fun _ => False, (· ≠ .unknownTag), True, False⟩

/-- A well-formed state whose closures count their parameters as far as the count goes. -/
def State.Shaped (c : Config) (s : State) : Prop :=
  s.WellFormed c ∧ ∀ a (cl : Closure), s.heap.get a = some cl.obj →
    (cl.Exact s.heap ↔ ∃ k < 2 ^ 32, s.heap.Params cl.params cl.variadic k)

theorem State.WellFormed.shaped {c : Config} {s : State} (hs : s.WellFormed c) : s.Shaped c :=
  ⟨hs, fun _ _ => hs.exact_iff⟩

theorem Head.safe {c : Config} {M : Mode Event} (hM : EvalMode c M) (hx : ∀ e, ¬ M.excused e) {ev : Val → Val → ML Val}
    (hev : EvSafe c M ev) {s t : State} {form env : Val} (hs : s.WellFormed c) (hform : s.heap.ValOk form)
    (henv : s.heap.FrameOk env) (h : Head c ev s form env t) : IterOk c s .again t := by
  have hok : ∀ {α : Type} {m : ML α} {u : State} {a : α} {Q : α → State → Prop} {E : Status → State → Prop},
      wp M m u Q E → (m u).res = .ok a → Q a (m u).state := by
    intro α m u a Q E hw ha
    have hk := (hw fun e _ => hx e).2
    rwa [ha] at hk
  induction h with
  | enter h =>
    refine hok (Q := fun _ => IterOk c s .again) (E := fun _ u => u.WellFormed c) ?_ h
    refine wp_seq (mlGcProtect_safe hs (.inl hform)) fun _ u hu => onErr_restore_safe ?_
    refine wp_mono (mlGcProtect_safe hu.1.wf (.inr (hu.2 ▸ henv))) (fun _ w hw => ?_) (fun _ _ h => h)
    have hheap : w.heap = s.heap := hw.2.trans hu.2
    exact ⟨form, env, hu.1.trans hw.1, hheap ▸ hform, hheap ▸ henv⟩
  | turn _ h ih =>
    obtain ⟨f, e, hu, hf, he⟩ := ih
    exact hok (evalIter_safe hM hev hu hf he) h

/-- With collections disabled no evaluation of a value in a frame gets stuck or sees an
unknown tag, whatever the shape of the form; each state at a loop head, and the last one, is
well-formed, and each closure in it counts its parameters exactly if there are fewer than
2^32 of them. -/
theorem mlEval_never_stuck (c : Config) (hc : ∀ s, c.collectDue s = false) (n : Nat) (s : State) (hs : s.WellFormed c)
    (form env : Val) (hform : s.heap.ValOk form) (henv : s.heap.FrameOk env) :
    (mlEval c n form env s).res ≠ .error .stuck ∧ .unknownTag ∉ (mlEval c n form env s).trace ∧
    ((mlEval c n form env s).res ≠ .error .timeout → (mlEval c n form env s).state.Shaped c) ∧
    (∀ v, (mlEval c n form env s).res = .ok v → (mlEval c n form env s).state.heap.ValOk v) ∧
    ∀ t, Head c (mlEval c n) s form env t → t.Shaped c := by
  have hM : EvalMode c Mode.steady :=
    ⟨⟨fun _ => nofun, nofun, fun _ => nofun⟩, ⟨fun _ _ => nofun, fun _ _ _ => nofun⟩, fun _ => nofun, .inr hc, id⟩
  have hx : ∀ e, ¬ Mode.steady.excused e := fun _ => id
  obtain ⟨hgood, hk⟩ := mlEval_safe hM n s form env hs hform henv fun e _ => hx e
  refine ⟨fun hr => ?_, fun h => hgood _ h rfl, fun ht => ?_, fun v hr => ?_, fun t ht => ?_⟩
  · rw [hr] at hk
    exact hk trivial
  · split at hk
    · exact hk.1.wf.shaped
    · exact hk.shaped
    · exact absurd trivial hk
    · exact absurd ‹_› ht
  · rw [hr] at hk
    exact hk.2
  · obtain ⟨_, _, hu, -, -⟩ := ht.safe hM hx (mlEval_safe hM n) hs hform henv
    exact hu.wf.shaped

/-! ## A parameter list of any length -/

/-- The defaults, without collections. -/
def Config.neverCollect : Config := { Config.created with collectDue := fun _ => false }

/-- `n` more cells of a list of symbols. -/
def Heap.addParams (h : Heap) : Nat → Heap × Val
  | 0 => (h, mvNil)
  | n + 1 => ((h.addParams n).1.alloc (.pair (.sym 13) (h.addParams n).2), .obj (h.addParams n).1.next)

def State.params (n : Nat) : Heap × Val := State.created.heap.addParams n

/-- `(lambda (p p ... p) 1)` with `n` parameters, next to the top-level frame. -/
def State.lambdaForm (n : Nat) : State :=
  { State.created with
    heap := (((State.params n).1.alloc (.pair (mlMakeFix 1) mvNil)).alloc
      (.pair (State.params n).2 (.obj (n + 2)))).alloc (.pair (.sym 3) (.obj (n + 3))) }

section Wrap
variable {h : Heap} {n : Nat} {s : State}

theorem Heap.addParams_next : (h.addParams n).1.next = h.next + n := by
  induction n with
  | zero => rfl
  | succ n ih => rw [Heap.addParams, Heap.next_alloc, ih, Nat.add_assoc]

theorem Heap.addParams_params : (h.addParams n).1.Params (h.addParams n).2 false n := by
  induction n with
  | zero => exact .nil
  | succ n ih =>
    have hx : (h.addParams n).1.Agree (fun _ => True) ((h.addParams n).1.alloc (.pair (.sym 13) (h.addParams n).2)) :=
      Heap.agree_alloc
    exact .cons ⟨_, rfl, by rw [Heap.addParams, Heap.get_alloc, if_pos rfl]⟩ (hx.params Val.in_all ih)

theorem State.WellFormed.addParams {c : Config} {s : State} (hs : s.WellFormed c) (n : Nat) :
    ({ s with heap := (s.heap.addParams n).1 } : State).WellFormed c ∧
      (s.heap.addParams n).1.ValOk (s.heap.addParams n).2 := by
  induction n with
  | zero => exact ⟨hs, trivial⟩
  | succ n ih =>
    exact ⟨ih.1.alloc (o := .pair _ _) ⟨trivial, ih.2⟩, _, by rw [Heap.addParams, Heap.get_alloc, if_pos rfl], rfl⟩

theorem State.created_wellFormed {c : Config} (hc : c.toplevelEnv = .obj 1) : State.created.WellFormed c := by
  have hget : ∀ a o, State.created.heap.get a = some o → o = .env mvNil [] 0 := by
    intro a o ho
    rw [show State.created.heap = Heap.empty.alloc (.env mvNil [] 0) from rfl, Heap.get_alloc] at ho
    split at ho
    · exact (Option.some.inj ho).symm
    · cases ho
  refine ⟨?_, fun a o ho => ?_, ⟨⟨mvNil, [], 0⟩, 1, hc, rfl⟩, ?_, ?_⟩
  · intro k hk
    rw [List.mem_singleton.1 hk]
  rotate_left
  · exact fun v (hv : v ∈ []) => absurd hv List.not_mem_nil
  · exact fun v (hv : v ∈ []) => absurd hv List.not_mem_nil
  · rw [hget a o ho]
    exact ⟨.inl rfl, fun b hb => by cases hb⟩

theorem State.WellFormed.plant {c : Config} {s : State} {t : Tree} (hs : s.WellFormed c) (ht : t.simple = true) :
    ({ s with heap := (s.heap.plant t).1 } : State).WellFormed c ∧ (s.heap.plant t).1.ValOk (s.heap.plant t).2 ∧
      s.heap.Agree (fun _ => True) (s.heap.plant t).1 := by
  induction t generalizing s with
  | leaf v =>
    refine ⟨hs, ?_, .of_all fun a o ho => ⟨o, ho, .refl o⟩⟩
    cases v with
    | fix p => exact ht
    | imm i => trivial
    | sym i => trivial
    | obj a => cases ht
    | reserved w => cases ht
  | node a d iha ihd =>
    obtain ⟨ha, hd⟩ := Bool.and_eq_true_iff.1 ht
    obtain ⟨hsa, hva, hxa⟩ := iha hs ha
    obtain ⟨hsd, hvd, hxd⟩ := ihd hsa hd
    refine ⟨hsd.alloc (o := .pair _ _) ⟨hxd.valOk Val.in_all hva, hvd⟩, ?_, .of_all fun x o ho => ?_⟩
    · exact ⟨.pair (s.heap.plant a).2 ((s.heap.plant a).1.plant d).2,
        by rw [Heap.plant, Heap.get_alloc, if_pos rfl], rfl⟩
    · obtain ⟨o₁, ho₁, hg₁⟩ := hxa.same x trivial o ho
      obtain ⟨o₂, ho₂, hg₂⟩ := hxd.same x trivial o₁ ho₁
      refine ⟨o₂, ?_, hg₁.trans hg₂⟩
      rw [Heap.plant, Heap.get_alloc, if_neg (Nat.ne_of_lt (Heap.lt_next_of_get ho₂).2), ho₂]

/-- A state that has been given a datum is well-formed. -/
theorem State.given_wellFormed {c : Config} {t : Tree} (hc : c.toplevelEnv = .obj 1) (ht : t.simple = true) :
    (State.given t).WellFormed c ∧ (State.given t).heap.ValOk t.value ∧ (State.given t).heap.FrameOk (.obj 1) := by
  obtain ⟨hs, hv, -⟩ := (State.created_wellFormed hc).plant ht
  have htop : (State.given t).heap.FrameOk (.obj 1) := hc ▸ hs.toplevel
  refine ⟨⟨hs.clear, hs.objs, hs.toplevel, fun v hv' => ?_, hs.pending⟩, hv, htop⟩
  rcases List.mem_pair.1 hv' with rfl | rfl
  · exact .inl hv
  · exact .inr htop

/-- The three cells on top of the parameter list. -/
theorem State.lambdaForm_get (n : Nat) :
    (State.lambdaForm n).heap.get (n + 4) = some (.pair (.sym 3) (.obj (n + 3))) ∧
    (State.lambdaForm n).heap.get (n + 3) = some (.pair (State.params n).2 (.obj (n + 2))) ∧
    (State.lambdaForm n).heap.get (n + 2) = some (.pair (mlMakeFix 1) mvNil) ∧
    (State.lambdaForm n).heap.get 1 = some (.env mvNil [] 0) ∧
    (State.lambdaForm n).heap.Params (State.params n).2 false n := by
  have hnext : (State.params n).1.next = n + 2 := by
    rw [State.params, Heap.addParams_next, Nat.add_comm]
    rfl
  have hone : ∀ k, (State.created.heap.addParams k).1.get 1 = some (.env mvNil [] 0) := by
    intro k
    induction k with
    | zero => rfl
    | succ k ih =>
      rw [Heap.addParams, Heap.get_alloc, if_neg, ih]
      rw [Heap.addParams_next, show State.created.heap.next = 2 from rfl]
      omega
  have hx : (State.params n).1.Agree (fun _ => True) (State.lambdaForm n).heap := by
    refine .of_all fun a o ho => ⟨o, ?_, .refl o⟩
    have := (Heap.lt_next_of_get ho).2
    simp only [State.lambdaForm, Heap.get_alloc, Heap.next_alloc, hnext]
    rw [if_neg (by omega), if_neg (by omega), if_neg (by omega), ho]
  refine ⟨?_, ?_, ?_, ?_, hx.params Val.in_all Heap.addParams_params⟩
  all_goals simp only [State.lambdaForm, Heap.get_alloc, Heap.next_alloc, hnext]
  · rw [if_pos trivial]
  · rw [if_neg (by omega), if_pos trivial]
  · rw [if_neg (by omega), if_neg (by omega), if_pos trivial]
  · rw [if_neg (by omega), if_neg (by omega), if_neg (by omega)]
    exact hone n

theorem State.lambdaForm_wellFormed (n : Nat) : (State.lambdaForm n).WellFormed .neverCollect := by
  have hnext : (State.params n).1.next = n + 2 := by
    rw [State.params, Heap.addParams_next, Nat.add_comm]
    rfl
  obtain ⟨hs, hp⟩ := (State.created_wellFormed (c := .neverCollect) rfl).addParams n
  have hval : ∀ {s : State} {o : Obj}, o.isEnv = false → ∀ k, k = s.heap.next → (s.heap.alloc o).ValOk (.obj k) := by
    rintro s o ho k rfl
    exact ⟨o, by rw [Heap.get_alloc, if_pos rfl], ho⟩
  have h1 := hs.alloc (o := .pair (mlMakeFix 1) mvNil) ⟨by rfl, trivial⟩
  have h2 := h1.alloc (o := .pair (State.params n).2 (.obj (n + 2)))
    ⟨Heap.agree_alloc.valOk Val.in_all hp, hval rfl _ hnext.symm⟩
  exact h2.alloc (o := .pair (.sym 3) (.obj (n + 3)))
    ⟨trivial, hval rfl _ (by rw [Heap.next_alloc]; exact congrArg (· + 1) hnext.symm)⟩

/-! ### The run -/

theorem closureArity_total {v : Val} {b : Bool} (hp : s.heap.Params v b n) {E : Status → State → Prop} :
    wp Mode.fully (closureArity v) s (fun r t => t = s ∧ r = (UInt32.ofNat n, b)) E := by
  have hends : ∀ w, s.heap.Ends w → (∀ a, w ≠ .obj a) → ∀ f : Bool → ML (UInt32 × Bool), ∀ Q,
      wp Mode.fully (f false) s Q E → wp Mode.fully (mlIsPair w >>= f) s Q E := by
    intro w hw hne f Q h
    refine wp_seq (mlIsPair_wp fun _ a ha => absurd ha (hne a)) ?_
    rintro x t ⟨rfl, hx⟩
    cases x with
    | false => exact h
    | true =>
      obtain ⟨⟨a, d⟩, ho⟩ := hx.1 rfl
      exact absurd ho (hw a d)
  have hloop : ∀ {v b n}, s.heap.Params v b n → ∀ bound k, n < bound →
      wp Mode.fully (closureArityLoop bound v k) s (fun r t => t = s ∧ r = (k + UInt32.ofNat n, b)) E := by
    intro v b n hp
    induction hp with
    | nil =>
      intro bound k hb
      obtain ⟨bound, rfl⟩ := Nat.exists_eq_add_of_lt hb
      rw [Nat.zero_add]
      exact hends _ Heap.ends_of_imm (by simp) _ _ (wp_pure ⟨rfl, by simp⟩)
    | rest =>
      intro bound k hb
      obtain ⟨bound, rfl⟩ := Nat.exists_eq_add_of_lt hb
      rw [Nat.zero_add]
      exact hends _ Heap.ends_of_sym (by simp) _ _ (wp_pure ⟨rfl, by simp⟩)
    | @cons v d i b n ho _ ih =>
      intro bound k hb
      obtain ⟨bound, rfl⟩ := Nat.exists_eq_add_of_lt hb
      refine wp_seq (mlIsPair_wp fun _ a ha _ => ?_) ?_
      · obtain ⟨_, rfl, hx⟩ := ho
        cases ha
        exact ⟨_, hx⟩
      rintro x t ⟨rfl, hx⟩
      refine wp_ite (fun _ => car_bind ho (cdr_bind ho ?_)) fun h => absurd (hx.2 ⟨(.sym i, d), ho⟩) h
      refine wp_mono (ih (n + 1 + bound) (k + 1) (by omega)) ?_ (fun _ _ h => h)
      rintro r t ⟨rfl, rfl⟩
      exact ⟨rfl, by rw [UInt32.ofNat_add]; simp only [Prod.mk.injEq, and_true]; ac_rfl⟩
  obtain ⟨w, hs, hw⟩ := hp.spine
  refine wp_bind (wp_gets (wp_mono (hloop hp _ 0 (Nat.lt_succ_of_lt (hs.lt_next hw))) ?_ (fun _ _ h => h)))
  rintro r t ⟨rfl, rfl⟩
  exact ⟨rfl, by simp⟩

/-- What is made of the parameters: a closure that counts them in a `uint32_t`. -/
def MadeClosure (n : Nat) (v : Val) (t : State) : Prop :=
  ∃ cl : Closure, t.heap.Has v cl.obj ∧ cl.variadic = false ∧ cl.arityMin = UInt32.ofNat n ∧
    t.heap.Params cl.params false n

theorem makeClosure_total {params body env : Val} {E : Status → State → Prop} (hp : s.heap.Params params false n) :
    wp Mode.fully (makeClosure .neverCollect params body env) s (fun v t => MadeClosure n v t) E := by
  have hc : ∀ n size, Config.neverCollect.alloc n size = true := fun _ _ => rfl
  refine wp_seq (closureArity_total hp) ?_
  rintro r t ⟨rfl, rfl⟩
  refine wp_bind (wp_gets (wp_seq (Q := fun _ u => u.heap = t.heap) (wp_onErr ?_) fun _ u hu => wp_andThen ?_))
  · refine wp_seq (mlGcProtect_total hc) fun _ u hu => wp_seq (mlGcProtect_total hc) fun _ w hw => ?_
    refine wp_mono (mlGcProtect_total hc) (fun _ x hx => ?_) (fun _ _ h => h)
    rw [hx, hw, hu]
  · refine wp_mono (gcAlloc_total (fun _ => trivial) hc rfl (by decide)) ?_ (fun _ _ h => h)
    rintro v x ⟨rfl, hx⟩
    have hheap : (mlGcRestore t.gcProtect.length x).heap = t.heap.alloc
        (.closure env params body false (UInt32.ofNat n)) := by
      rw [hx, ← hu]
      rfl
    refine ⟨⟨env, params, body, false, UInt32.ofNat n⟩, ⟨_, rfl, ?_⟩, rfl, rfl, ?_⟩
    · rw [hheap, hu, Heap.get_alloc, if_pos rfl]
      rfl
    · rw [hheap]
      exact Heap.agree_alloc.params Val.in_all hp

/-- The form makes the closure. -/
theorem mlEval_lambdaForm (n : Nat) :
    wp Mode.fully (mlEval .neverCollect 1 (.obj (n + 4)) (.obj 1)) (State.lambdaForm n) (MadeClosure n)
      (fun _ _ => False) := by
  obtain ⟨h4, h3, h2, h1, hp⟩ := State.lambdaForm_get n
  have hc : ∀ n size, Config.neverCollect.alloc n size = true := fun _ _ => rfl
  have hpair : ∀ {k a d} {t : State}, t.heap = (State.lambdaForm n).heap →
      (State.lambdaForm n).heap.get k = some (.pair a d) → t.heap.Has (.obj k) (.pair a d) := by
    intro k a d t ht hk
    rw [ht]
    exact ⟨k, rfl, hk⟩
  have hsome : ∀ {t : State} {v : Val} {a d : Val} {f : Bool → ML Iter} {Q : Iter → State → Prop},
      t.heap.Has v (.pair a d) →
      wp Mode.fully (f true) t Q (fun _ _ => False) → wp Mode.fully (mlIsPair v >>= f) t Q (fun _ _ => False) := by
    intro t v a d f Q ho h
    obtain ⟨k, rfl, hk⟩ := id ho
    refine isPair_bind ⟨_, hk, rfl⟩ fun b hb => ?_
    rw [hb.2 ⟨(a, d), ho⟩]
    exact h
  have hlambda : ∀ t : State, t.heap = (State.lambdaForm n).heap →
      wp Mode.fully (handleLambda .neverCollect (.obj (n + 3)) (.obj 1)) t
        (fun r u => ∃ v, r = .value v ∧ MadeClosure n v u) (fun _ _ => False) := by
    intro t ht
    have ho := hpair ht h3
    have hl : t.heap.Spine (.obj (n + 3)) 2 mvNil := .cons ho (.cons (hpair ht h2) .nil)
    refine wp_seq (Q := fun r u => u = t ∧ r = some 2) ?_ ?_
    · refine wp_bind (wp_gets (wp_seq (walkList_total hl Heap.ends_of_imm (fun _ a h => by cases h) ?_) ?_))
      · exact Nat.lt_succ_of_lt (hl.lt_next Heap.ends_of_imm)
      · rintro r u ⟨rfl, rfl⟩
        exact wp_pure ⟨rfl, rfl⟩
    · rintro r u ⟨rfl, rfl⟩
      refine wp_ite (fun h => absurd h (by decide)) fun _ => car_bind ho (cdr_bind ho ?_)
      have hparams : u.heap.Params (State.params n).2 false n := ht ▸ hp
      have hok : u.heap.ValOk (State.params n).2 := by
        rw [ht]
        exact ((State.lambdaForm_wellFormed n).objs _ _ h3).1
      refine isPair_bind hok fun b hb => wp_ite (fun h => ?_) fun _ => ?_
      · simp only [Bool.and_eq_true, Bool.not_eq_true', decide_eq_true_eq] at h
        rcases hparams.proper with hnil | ho
        · exact absurd hnil h.1.2
        · simp [hb.2 ho] at h
      · exact wp_seq (makeClosure_total hparams) fun v w hw => wp_pure ⟨v, rfl, hw⟩
  have hiter : ∀ t : State, t.heap = (State.lambdaForm n).heap → t.gcProtect = [.obj (n + 4), .obj 1] →
      wp Mode.fully (evalIter .neverCollect (mlEval .neverCollect 0) 0) t
        (fun i u => ∃ v, i = .done v ∧ MadeClosure n v u) (fun _ _ => False) := by
    intro t ht hslots
    have ho := hpair ht h4
    refine gcProtectGet_bind (v := .obj (n + 4)) (by simp [hslots])
      (gcProtectGet_bind (v := .obj 1) (by simp [hslots]) ?_)
    refine hsome ho (wp_ite (fun _ => ?_) fun h => absurd rfl h)
    refine car_bind ho (cdr_bind ho (wp_ite (fun _ => ?_) fun h => absurd rfl h))
    refine wp_seq (Q := fun r u => ∃ v, r = .value v ∧ MadeClosure n v u) (wp_onErr ?_) ?_
    · refine wp_ite (fun h => absurd h (by decide)) fun _ => wp_ite (fun h => absurd h (by decide)) fun _ => ?_
      refine wp_ite (fun h => absurd h (by decide)) fun _ => wp_ite (fun h => absurd h (by decide)) fun _ => ?_
      exact wp_ite (fun _ => hlambda t ht) fun h => absurd rfl h
    · rintro r u ⟨v, rfl, hv⟩
      exact wp_bind (wp_modify (wp_pure ⟨v, rfl, hv⟩))
  have hdepth : ¬ (State.lambdaForm n).evalDepth ≥ Config.neverCollect.maxEvalDepth := by
    show ¬ 0 ≥ 1024
    omega
  refine wp_bind (wp_gets (wp_ite (fun h => absurd h hdepth) fun _ => wp_bind (wp_modify (wp_andThen ?_))))
  refine wp_bind (wp_gets (wp_seq (mlGcProtect_total hc) fun _ t ht => ?_))
  refine wp_seq (wp_onErr (mlGcProtect_total hc)) fun _ u hu => ?_
  refine wp_seq (hiter u (by rw [hu, ht]) (by rw [hu, ht]; rfl)) ?_
  rintro i w ⟨v, rfl, cl, hv⟩
  exact wp_pure ⟨cl, hv⟩

/-- A closure of 2^32 parameters says that it has none. -/
theorem mlEval_lambdaForm_wraps :
    (State.lambdaForm (2 ^ 32)).WellFormed .neverCollect ∧
    (State.lambdaForm (2 ^ 32)).heap.ValOk (.obj (2 ^ 32 + 4)) ∧
    (State.lambdaForm (2 ^ 32)).heap.FrameOk (.obj 1) ∧
    ∃ v t, (mlEval .neverCollect 1 (.obj (2 ^ 32 + 4)) (.obj 1) (State.lambdaForm (2 ^ 32))).res = .ok v ∧
      (mlEval .neverCollect 1 (.obj (2 ^ 32 + 4)) (.obj 1) (State.lambdaForm (2 ^ 32))).state = t ∧
      ∃ cl : Closure, t.heap.Has v cl.obj ∧ cl.arityMin = 0 ∧ t.heap.Params cl.params cl.variadic (2 ^ 32) ∧
        ¬ cl.Exact t.heap := by
  obtain ⟨h4, -, -, h1, -⟩ := State.lambdaForm_get (2 ^ 32)
  refine ⟨State.lambdaForm_wellFormed _, ⟨_, h4, rfl⟩, ⟨⟨mvNil, [], 0⟩, 1, rfl, h1⟩, ?_⟩
  obtain ⟨v, hv, cl, hcl, hvariadic, harity, hp⟩ := ok_of_wp_fully (mlEval_lambdaForm (2 ^ 32))
  have hzero : cl.arityMin = 0 := by rw [harity]; decide
  refine ⟨v, _, hv, rfl, cl, hcl, hzero, hvariadic ▸ hp, fun he => ?_⟩
  have hn := Heap.Params.unique he (hvariadic ▸ hp)
  rw [hzero] at hn
  cases hn

theorem mlEval_never_stuck_lambda :
    (mlEval .neverCollect 1 (.obj 6) (.obj 1) (State.lambdaForm 2)).res ≠ .error .stuck ∧
    (mlEval .neverCollect 1 (.obj 6) (.obj 1) (State.lambdaForm 2)).state.Shaped .neverCollect := by
  obtain ⟨h4, -, -, h1, -⟩ := State.lambdaForm_get 2
  obtain ⟨hstuck, -, hshaped, -, -⟩ := mlEval_never_stuck .neverCollect (fun _ => rfl) 1 (State.lambdaForm 2)
    (State.lambdaForm_wellFormed 2) (.obj 6) (.obj 1) ⟨_, h4, rfl⟩ ⟨⟨mvNil, [], 0⟩, 1, rfl, h1⟩
  refine ⟨hstuck, hshaped fun ht => ?_⟩
  obtain ⟨v, hv, -⟩ := ok_of_wp_fully (mlEval_lambdaForm 2)
  rw [hv] at ht
  cases ht

end Wrap

end Microlisp
