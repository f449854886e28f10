import Microlisp.Balance.Eval
import Microlisp.Safety.Primitives
/-!
# The evaluator never gets stuck

Whatever the form: every handler tests the shape it relies on before it takes the form
apart, nothing a program can do changes a pair, and a closure has the shape that its
call assumes since it was made.
-/
namespace Microlisp

open Prog

/-! ## Lists -/

section Lists
variable {c : Config} {M : Mode Event} {s : State} {v a d : Val} {α β : Type} {Q : β → State → Prop}
  {E : Status → State → Prop}

theorem Heap.IsList.cons_inv {h : Heap} {n : Nat} (hl : h.IsList v (n + 1)) :
    ∃ a d, h.Has v (.pair a d) ∧ h.IsList d n := by
  cases hl with
  | cons ho hd => exact ⟨_, _, ho, hd⟩

theorem car_bind {f : Val → ML β} (ho : s.heap.Has v (.pair a d)) (h : wp M (f a) s Q E) :
    wp M (car v >>= f) s Q E := by
  refine wp_seq (car_wp fun _ => ⟨a, d, ho⟩) ?_
  rintro x t ⟨rfl, d', ho'⟩
  cases ho.unique ho'
  exact h

theorem cdr_bind {f : Val → ML β} (ho : s.heap.Has v (.pair a d)) (h : wp M (f d) s Q E) :
    wp M (cdr v >>= f) s Q E := by
  refine wp_seq (cdr_wp fun _ => ⟨a, d, ho⟩) ?_
  rintro x t ⟨rfl, a', ho'⟩
  cases ho.unique ho'
  exact h

theorem isPair_bind {f : Bool → ML β} (hv : s.heap.ValOk v)
    (h : ∀ b, (b = true ↔ ∃ x : Val × Val, s.heap.Has v (.pair x.1 x.2)) → wp M (f b) s Q E) :
    wp M (mlIsPair v >>= f) s Q E := by
  refine wp_seq (mlIsPair_wp fun _ => hv.holds) ?_
  rintro b t ⟨rfl, hb⟩
  exact h b hb

theorem closureFields_bind {cl : Closure} {f : Closure → ML β} (ho : s.heap.Has v cl.obj) (h : wp M (f cl) s Q E) :
    wp M (closureFields v >>= f) s Q E := by
  refine wp_seq (closureFields_wp fun _ => ⟨cl, ho⟩) ?_
  rintro ⟨_, _, _, _, _⟩ t ⟨rfl, ho'⟩
  cases cl
  cases ho.unique ho'
  exact h

/-- An argument list that is not too short. -/
theorem exists_of_not_all {n : Option Nat} (h : ¬ n.all (· < 2) = true) : ∃ k, n = some (k + 2) := by
  cases n with
  | none => simp at h
  | some n => exact ⟨n - 2, by simp at h; rw [Nat.sub_add_cancel h]⟩

variable (hM : EvalMode c M)
include hM

theorem properListLength_bind {f : Option Nat → ML β} (hs : s.WellFormed c) (hv : s.heap.ValOk v)
    (h : ∀ n, (∀ k, n = some k → s.heap.IsList v k) → wp M (f n) s Q E) : wp M (properListLength v >>= f) s Q E := by
  have hwalk : wp M (properListLength v) s (fun n _ => ∀ k, n = some k → s.heap.IsList v k)
      (fun _ u => u.WellFormed c) := by
    refine wp_bind (wp_gets (wp_seq (walkList_still hM 0 _ hv s ⟨hs, rfl⟩) ?_))
    rintro ⟨n, w⟩ t ⟨⟨-, hl⟩, -⟩
    refine wp_pure fun k hk => ?_
    split at hk
    · cases hk
    · rename_i hw
      cases hk
      exact hl (by simpa using hw)
  refine wp_seq (wp_mono (wp_and (properListLength_reads s) hwalk) (fun _ _ h => h) (fun _ _ h => h.1.elim)) ?_
  rintro n t ⟨rfl, hn⟩
  exact h n hn

end Lists

/-- What a handler may return. -/
def SfResult.Ok (h : Heap) : SfResult → Prop
  | .notHandled => False
  | .value v => h.ValOk v
  | .tco form env => h.ValOk form ∧ h.FrameOk env

/-- A nested evaluation from a well-formed state returns a value. -/
def EvSafe (c : Config) (M : Mode Event) (ev : Val → Val → ML Val) : Prop :=
  ∀ s form env, s.WellFormed c → s.heap.ValOk form → s.heap.FrameOk env →
    wp M (ev form env) s (fun v u => s.Good c [] u ∧ u.heap.ValOk v) (fun _ u => u.WellFormed c)

section Handlers
variable {c : Config} {M : Mode Event} {s : State} {ev : Val → Val → ML Val} {args env : Val}
variable (hM : EvalMode c M)
include hM

/-! ## Closures -/

theorem closureArity_safe {params : Val} (hs : s.WellFormed c) (hp : s.Holds c params) :
    wp M (closureArity params) s (fun r u => u = s ∧ ∃ n, s.heap.Params params r.2 n ∧ r.1 = UInt32.ofNat n)
      (fun _ u => u.WellFormed c) := by
  have hloop : ∀ bound cur k, s.Holds c cur → wp M (closureArityLoop bound cur k) s
      (fun r u => u = s ∧ ∃ n, s.heap.Params cur r.2 n ∧ r.1 = k + UInt32.ofNat n) (fun _ u => u.WellFormed c) := by
    intro bound
    induction bound with
    | zero => exact fun _ _ _ => wp_timeout hM.total
    | succ bound ih =>
      intro cur k hcur
      refine isPair_bind hcur.ok fun b hb => wp_ite (fun hb' => ?_) (fun _ => wp_ite (fun hnil => ?_) fun _ => ?_)
      · obtain ⟨⟨a, d⟩, ho⟩ := hb.1 hb'
        refine car_bind ho (wp_ite (fun _ => raise_safe hs) fun hsym => cdr_bind ho ?_)
        refine wp_mono (ih d (k + 1) (hcur.cdr hs ho)) ?_ (fun _ _ h => h)
        rintro r u ⟨rfl, n, hn, hr⟩
        cases a with
        | sym i => exact ⟨rfl, n + 1, .cons ho hn, by rw [hr, UInt32.ofNat_add]; ac_rfl⟩
        | _ => exact absurd rfl hsym
      · subst hnil
        exact wp_pure ⟨rfl, 0, .nil, by simp⟩
      · refine wp_ite (fun hsym => ?_) fun _ => raise_safe hs
        cases cur with
        | sym i => exact wp_pure ⟨rfl, 0, .rest, by simp⟩
        | _ => cases hsym
  refine wp_bind (wp_gets (wp_mono (hloop _ params 0 hp) ?_ (fun _ _ h => h)))
  rintro r u ⟨rfl, n, hn, hr⟩
  exact ⟨rfl, n, hn, by simpa using hr⟩

theorem makeClosure_safe {params body : Val} (hs : s.WellFormed c) (hp : s.Holds c params) (hb : s.Holds c body)
    {n : Nat} (hbody : s.heap.IsList body (n + 1)) (henv : s.HoldsFrame c env) :
    wp M (makeClosure c params body env) s (fun v u => s.Good c [] u ∧ u.heap.ValOk v) (fun _ u => u.WellFormed c) := by
  refine wp_seq (closureArity_safe hM hs hp) ?_
  rintro ⟨arityMin, variadic⟩ s ⟨rfl, k, hk, harity⟩
  refine savepoint_safe (wp_seq (Q := fun _ t => s.Good c [params, body, env] t) (onErr_restore_safe ?_) ?_)
  · refine wp_seq (mlGcProtect_safe hs (.inl hp.ok)) fun _ t ht => ?_
    refine wp_seq (mlGcProtect_safe ht.1.wf (.inl (ht.1.holds hb).ok)) fun _ u hu => ?_
    have hu' := ht.1.trans hu.1
    exact wp_mono (mlGcProtect_safe hu'.wf (.inr (hu'.holdsFrame henv).ok)) (fun _ _ h => hu'.trans h.1)
      (fun _ _ h => h)
  · intro _ t ht
    have hobj : t.heap.ObjOk (.closure env params body variadic arityMin) :=
      ⟨(ht.holdsFrame henv).ok, (ht.holds hp).ok, ⟨k, ht.agree.params hp.kept hk, harity⟩, (ht.holds hb).ok, n,
        ht.agree.isList hb.kept hbody⟩
    refine wp_andThen (wp_mono (gcAlloc_safe hM ht.wf hobj ?_) ?_ fun _ _ h => h.restore _)
    · intro v hv
      exact ht.pushed (by simpa [Obj.refs, or_left_comm, or_comm] using hv)
    · rintro v u ⟨hu, a, rfl, ha⟩
      exact ⟨State.Good.restore (l := []) (ht.seq hu), _, ha, rfl⟩

theorem bindParams_safe {argv : List Val} {e : Val} {variadic : Bool} (n i : Nat) {cur : Val} {t : State} {k : Nat}
    (ht : s.Good c [e] t) (he : t.heap.FrameOk e) (hargv : ∀ v ∈ argv, t.Holds c v) (hcur : t.Holds c cur)
    (hparams : t.heap.Params cur variadic k) (hn : n ≤ k) (hi : i + n ≤ argv.length) :
    wp M (bindParams c e argv s.gcProtect.length n i cur) t (fun _ u => s.Good c [e] u ∧ u.heap.FrameOk e)
      (fun _ u => u.WellFormed c) := by
  induction n generalizing i cur t k with
  | zero => exact wp_pure ⟨ht, he⟩
  | succ n ih =>
    obtain ⟨k, rfl⟩ := Nat.exists_eq_add_of_le' (Nat.le_trans (Nat.le_add_left 1 n) hn)
    cases hparams with
    | cons ho hd =>
      refine car_bind ho (wp_seq (argvGet_wp fun _ => by omega) ?_)
      rintro arg t ⟨rfl, harg⟩
      refine wp_seq (onErr_restore_safe (mlEnvDefine_safe hM.toCollects ht.wf he (hargv arg harg).ok)) fun _ u hu => ?_
      refine cdr_bind (hu.agree.has_eq hcur.kept ho rfl) ?_
      exact ih (i + 1) (ht.seq hu) (hu.holdsFrame ⟨he, ht.pushed (by simp)⟩).ok (fun v hv => hu.holds (hargv v hv))
        (hu.holds (hcur.cdr ht.wf ho)) (hu.agree.params (State.kept_field hcur.kept ho (by simp [Obj.fixedRefs])) hd)
        (by omega) (by omega)

theorem buildList_safe {argv : List Val} {start stop : Nat} (hs : s.WellFormed c) (hargv : ∀ v ∈ argv, s.Holds c v)
    (hstop : stop ≤ argv.length) :
    wp M (buildList c argv start stop) s (fun v u => s.Good c [] u ∧ u.heap.ValOk v) (fun _ u => u.WellFormed c) := by
  refine slot_safe hs fun t ht => slotLoop_safe (n := stop - start)
    (f := fun i head => do
      let elem ← argvGet argv (start + i)
      (mlGcProtect c elem).onErr (mlGcRestore s.gcProtect.length)
      ((mlGcAllocPair c elem head).andThen (mlGcUnprotect 1)).onErr (mlGcRestore s.gcProtect.length))
    (fun _ => rfl) (fun i head => ?_) (fun i head t hi ht hhead => ?_) _ _ t (Nat.le_refl _) ht trivial
  · simp only [bind_assoc]
    rfl
  · refine wp_seq (argvGet_wp fun _ => by omega) ?_
    rintro elem t ⟨rfl, helem⟩
    have helem := hargv elem helem
    refine wp_seq (onErr_restore_safe (mlGcProtect_safe ht.wf (.inl (ht.holds helem).ok))) fun _ u hu => ?_
    refine onErr_restore_safe (wp_andThen (wp_mono
      (consStep_safe hM (ht.trans hu.1) (by simp) (hu.2 ▸ hhead) helem) ?_ fun _ _ h => h.unprotect 1))
    exact fun v w hw => ⟨State.Good.unprotect (l := [head]) (r := [elem]) hw.1, hw.2⟩

theorem applyClosureBind_safe {closure : Val} {argv : List Val} {cl : Closure} (hs : s.WellFormed c)
    (hclosure : s.Holds c closure) (hcl : s.heap.Has closure cl.obj) (hargv : ∀ v ∈ argv, s.Holds c v) :
    wp M (applyClosureBind c closure argv) s (fun e u => s.Good c [] u ∧ u.heap.FrameOk e)
      (fun _ u => u.WellFormed c) := by
  obtain ⟨a, -, ha⟩ := id hcl
  obtain ⟨henv, hparamsOk, ⟨k, hk, harity⟩, -, -⟩ : s.heap.ObjOk cl.obj := hs.objs a _ ha
  have hkept : ∀ v ∈ [cl.env, cl.params, cl.body], v.In (s.Kept c) := fun v hv => State.kept_field hclosure.kept hcl hv
  have hle : cl.arityMin.toNat ≤ k := by
    rw [harity, UInt32.toNat_ofNat']
    exact Nat.mod_le _ _
  refine closureFields_bind hcl (wp_ite (fun _ => raise_safe hs) fun h1 => wp_ite (fun _ => raise_safe hs) fun h2 => ?_)
  have hlen : cl.arityMin.toNat ≤ argv.length := by
    cases hv : cl.variadic <;> simp [hv] at h1 h2 <;> omega
  have hframe : s.heap.ObjOk (.env cl.env [] 0) := ⟨.inr henv, fun _ h => by cases h⟩
  refine wp_seq (gcAlloc_safe hM hs hframe ?_) fun e t ht => savepoint_safe ?_
  · intro v hv
    simp only [Obj.refs, List.flatMap_nil, List.mem_singleton] at hv
    exact hkept v (by simp [hv])
  have he : t.heap.FrameOk e := ⟨⟨cl.env, [], 0⟩, ht.2⟩
  refine wp_seq (mlGcProtect_safe ht.1.wf (.inr he)) fun _ u hu => ?_
  have hu' := ht.1.trans hu.1
  refine closureFields_bind (hu'.agree.has_eq hclosure.kept hcl rfl) ?_
  refine wp_seq (bindParams_safe hM _ 0 hu.1 (hu.2 ▸ he) (fun v hv => hu'.holds (hargv v hv))
    (hu'.holds ⟨hparamsOk, hkept _ (by simp)⟩) (hu'.agree.params (hkept _ (by simp)) hk) hle (by omega))
      fun cur w hw => ?_
  have hend : ∀ w, t.Good c [e] w → w.heap.FrameOk e → wp M (do
      modify (mlGcRestore t.gcProtect.length)
      pure e : ML Val) w (fun e u => s.Good c [] u ∧ u.heap.FrameOk e) (fun _ u => u.WellFormed c) := fun w hw he =>
    wp_bind (wp_modify (wp_pure ⟨ht.1.seq (State.Good.restore (l := []) hw), he⟩))
  refine wp_ite (fun _ => wp_ite (fun _ => ?_) fun _ => ?_) fun _ => hend w hw.1 hw.2
  · exact wp_seq (onErr_restore_safe (raise_safe (Q := fun _ _ => False) hw.1.wf)) fun _ _ h => h.elim
  · have hw' := ht.1.trans hw.1
    refine wp_seq
      (onErr_restore_safe (buildList_safe hM hw.1.wf (fun v hv => hw'.holds (hargv v hv)) (Nat.le_refl _))) ?_
    intro rest x hx
    have hex := hx.1.holdsFrame ⟨hw.2, hw.1.pushed (by simp)⟩
    refine wp_seq (onErr_restore_safe (mlEnvDefine_safe hM.toCollects hx.1.wf hex.ok hx.2)) fun _ y hy => ?_
    exact hend y ((hw.1.seq hx.1).seq hy) (hy.holdsFrame hex).ok

variable (hev : EvSafe c M ev)
include hev

theorem evalArgList_safe (hs : s.WellFormed c) (hargs : s.Holds c args) (henv : s.HoldsFrame c env) :
    wp M (evalArgList c ev args env) s (fun argv u => s.Good c argv u ∧ ∀ v ∈ argv, u.Holds c v)
      (fun _ u => u.WellFormed c) := by
  have hloop : ∀ i cur argv t, s.Good c argv t → (∀ v ∈ argv, t.Holds c v) → t.Holds c cur → t.HoldsFrame c env →
      t.heap.IsList cur i → wp M (evalArgLoop c ev env i cur argv) t
        (fun argv u => s.Good c argv u ∧ ∀ v ∈ argv, u.Holds c v) (fun _ u => u.WellFormed c) := by
    intro i
    induction i with
    | zero => exact fun _ _ _ ht hargv _ _ _ => wp_pure ⟨ht, hargv⟩
    | succ i ih =>
      intro cur argv t ht hargv hcur henv hl
      obtain ⟨a, d, ho, hd⟩ := hl.cons_inv
      refine car_bind ho (wp_seq (onErr_unprotect_safe (hev t a env ht.wf (hcur.car ht.wf ho).ok henv.ok))
        fun v u hu => ?_)
      refine wp_seq (onErr_unprotect_safe (mlGcProtect_safe hu.1.wf (.inl hu.2))) fun _ w hw => ?_
      have htw : t.Good c [v] w := hu.1.trans hw.1
      refine cdr_bind (htw.agree.has_eq hcur.kept ho rfl) ?_
      have hd' := hcur.cdr ht.wf ho
      refine ih d (argv ++ [v]) w (ht.trans htw) ?_ (htw.holds hd') (htw.holdsFrame henv) (htw.agree.isList hd'.kept hd)
      intro x hx
      rcases List.mem_append.1 hx with hx | hx
      · exact htw.holds (hargv x hx)
      · rw [List.mem_singleton.1 hx]
        exact ⟨hw.2 ▸ hu.2, htw.pushed (by simp)⟩
  refine properListLength_bind hM hs hargs.ok fun n hn => ?_
  cases n with
  | none => exact raise_safe hs
  | some argc =>
    refine wp_ite (fun _ => wp_pure ⟨.refl hs, by simp⟩) fun _ => ?_
    refine wp_seq (rawAllocOrFail_safe hs) fun _ t ht => ?_
    exact hloop argc args [] t ht.1 (by simp) (ht.1.holds hargs) (ht.1.holdsFrame henv)
      (ht.1.agree.isList hargs.kept (hn argc rfl))

/-! ## Special forms -/

omit hev

/-- A handler returns, in a well-formed state, what its caller can go on with. -/
def Handled (c : Config) (s : State) (r : SfResult) (u : State) : Prop := s.Good c [] u ∧ r.Ok u.heap

theorem handleQuote_safe (hs : s.WellFormed c) (hargs : s.Holds c args) :
    wp M (handleQuote args) s (Handled c s) (fun _ u => u.WellFormed c) := by
  refine properListLength_bind hM hs hargs.ok fun n hn => wp_ite (fun _ => raise_safe hs) fun h => ?_
  obtain ⟨a, d, ho, -⟩ := (hn 1 (by simpa using h)).cons_inv
  exact car_bind ho (wp_pure ⟨.refl hs, (hargs.car hs ho).ok⟩)

/-- `begin_tco`: the leading forms are evaluated, the last one is left to the caller. -/
theorem beginTco_safe (hev : EvSafe c M ev) {forms : Val} (hs : s.WellFormed c) (hforms : s.Holds c forms)
    (henv : s.HoldsFrame c env) :
    wp M (beginTco ev forms env) s (Handled c s) (fun _ u => u.WellFormed c) := by
  have hloop : ∀ i forms t, s.Good c [] t → t.Holds c forms → t.HoldsFrame c env → t.heap.IsList forms i →
      wp M (beginLoop ev env i forms) t
        (fun last u => s.Good c [] u ∧ u.heap.FrameOk env ∧ ∃ a d, u.heap.ValOk a ∧ u.heap.Has last (.pair a d))
        (fun _ u => u.WellFormed c) := by
    intro i
    induction i with
    | zero => exact fun _ _ _ _ _ _ => wp_timeout hM.total
    | succ i ih =>
      intro forms t ht hforms henv hl
      obtain ⟨a, d, ho, hd⟩ := hl.cons_inv
      have hd' := hforms.cdr ht.wf ho
      refine cdr_bind ho (isPair_bind hd'.ok fun b _ => wp_ite (fun _ => car_bind ho ?_) fun _ => ?_)
      · refine wp_seq (hev t a env ht.wf (hforms.car ht.wf ho).ok henv.ok) fun v u hu => ?_
        refine cdr_bind (hu.1.agree.has_eq hforms.kept ho rfl) ?_
        exact ih d u (ht.seq hu.1) (hu.1.holds hd') (hu.1.holdsFrame henv) (hu.1.agree.isList hd'.kept hd)
      · exact wp_pure ⟨ht, henv.ok, a, d, (hforms.car ht.wf ho).ok, ho⟩
  refine wp_ite (fun _ => wp_pure ⟨.refl hs, trivial⟩) fun _ => properListLength_bind hM hs hforms.ok fun n hn => ?_
  cases n with
  | none => exact raise_safe hs
  | some n =>
    refine wp_seq (hloop n forms s (.refl hs) hforms henv (hn n rfl)) ?_
    rintro last u ⟨hu, he, a, d, ha, ho⟩
    exact car_bind ho (wp_pure ⟨hu, ha, he⟩)

theorem handleIf_safe (hev : EvSafe c M ev) (hs : s.WellFormed c) (hargs : s.Holds c args) (henv : s.HoldsFrame c env) :
    wp M (handleIf ev args env) s (Handled c s) (fun _ u => u.WellFormed c) := by
  refine properListLength_bind hM hs hargs.ok fun n hn => wp_ite (fun _ => raise_safe hs) fun h => ?_
  obtain ⟨k, rfl⟩ : ∃ k, n = some (k + 2) := by
    rcases not_and_or.1 h with h | h
    · exact ⟨0, not_not.1 h⟩
    · exact ⟨1, not_not.1 h⟩
  obtain ⟨testForm, rest, ho, hl⟩ := (hn _ rfl).cons_inv
  obtain ⟨thenForm, rest', ho', hl'⟩ := hl.cons_inv
  have hrest := hargs.cdr hs ho
  refine car_bind ho (cdr_bind ho (car_bind ho' ?_))
  have htest : ∀ elseForm, s.Holds c elseForm → wp M (do
      let testV ← ev testForm env
      if mlTruthy testV then pure (SfResult.tco thenForm env)
      else if some (k + 2) = some 3 then pure (.tco elseForm env) else pure (.value mvUndef)) s (Handled c s)
      (fun _ u => u.WellFormed c) := by
    intro elseForm helse
    refine wp_seq (hev s testForm env hs (hargs.car hs ho).ok henv.ok) fun v u hu => ?_
    have he := (hu.1.holdsFrame henv).ok
    refine wp_ite (fun _ => wp_pure ⟨hu.1, (hu.1.holds (hrest.car hs ho')).ok, he⟩) fun _ => ?_
    exact wp_ite (fun _ => wp_pure ⟨hu.1, (hu.1.holds helse).ok, he⟩) fun _ => wp_pure ⟨hu.1, trivial⟩
  refine wp_ite (fun h3 => ?_) fun _ => wp_bind (wp_pure (htest _ ⟨trivial, fun _ h => by cases h⟩))
  obtain rfl : k = 1 := by simpa using h3
  obtain ⟨elseForm, _, ho'', -⟩ := hl'.cons_inv
  exact cdr_bind ho' (car_bind ho'' (htest _ ((hrest.cdr hs ho').car hs ho'')))

theorem defineProtected_safe {name value : Val} (hs : s.WellFormed c) (henv : s.HoldsFrame c env)
    (hv : s.heap.ValOk value) :
    wp M (defineProtected c env name value) s (Handled c s) (fun _ u => u.WellFormed c) := by
  refine savepoint_safe (wp_seq (mlGcProtect_safe hs (.inl hv)) fun _ t ht => ?_)
  refine wp_seq (Q := fun _ u => s.Good c [] u) (wp_andThen ?_) fun _ u hu => wp_pure ⟨hu, trivial⟩
  refine wp_mono (mlEnvDefine_safe hM.toCollects ht.1.wf (ht.1.holdsFrame henv).ok (ht.2 ▸ hv)) ?_
    fun _ _ h => h.restore _
  exact fun _ u hu => State.Good.restore (l := []) (ht.1.seq hu)

theorem handleDefine_safe (hev : EvSafe c M ev) (hs : s.WellFormed c) (hargs : s.Holds c args)
    (henv : s.HoldsFrame c env) :
    wp M (handleDefine c ev args env) s (Handled c s) (fun _ u => u.WellFormed c) := by
  refine properListLength_bind hM hs hargs.ok fun n hn => wp_ite (fun _ => raise_safe hs) fun h => ?_
  obtain ⟨k, rfl⟩ := exists_of_not_all h
  obtain ⟨first, rest, ho, hl⟩ := (hn _ rfl).cons_inv
  have hfirst := hargs.car hs ho
  have hrest := hargs.cdr hs ho
  refine car_bind ho (cdr_bind ho (wp_ite (fun _ => wp_ite (fun _ => raise_safe hs) fun _ => ?_) fun _ => ?_))
  · obtain ⟨form, d, ho', -⟩ := hl.cons_inv
    refine car_bind ho' (wp_seq (hev s form env hs (hrest.car hs ho').ok henv.ok) fun v u hu => ?_)
    refine wp_mono (defineProtected_safe hM hu.1.wf (hu.1.holdsFrame henv) hu.2) ?_ (fun _ _ h => h)
    exact fun r w hw => ⟨hu.1.seq hw.1, hw.2⟩
  · refine isPair_bind hfirst.ok fun b hb => wp_ite (fun hb' => ?_) fun _ => raise_safe hs
    obtain ⟨⟨name, params⟩, ho'⟩ := hb.1 hb'
    refine car_bind ho' (wp_ite (fun _ => raise_safe hs) fun _ => cdr_bind ho' ?_)
    refine wp_seq (makeClosure_safe hM hs (hfirst.cdr hs ho') hrest hl henv) fun cl u hu => ?_
    refine wp_mono (defineProtected_safe hM hu.1.wf (hu.1.holdsFrame henv) hu.2) ?_ (fun _ _ h => h)
    exact fun r w hw => ⟨hu.1.seq hw.1, hw.2⟩

theorem handleSetBang_safe (hev : EvSafe c M ev) (hs : s.WellFormed c) (hargs : s.Holds c args)
    (henv : s.HoldsFrame c env) :
    wp M (handleSetBang c ev args env) s (Handled c s) (fun _ u => u.WellFormed c) := by
  refine properListLength_bind hM hs hargs.ok fun n hn => wp_ite (fun _ => raise_safe hs) fun h => ?_
  obtain ⟨name, rest, ho, hl⟩ := (hn 2 (by simpa using h)).cons_inv
  obtain ⟨form, d, ho', -⟩ := hl.cons_inv
  refine car_bind ho (wp_ite (fun _ => raise_safe hs) fun _ => cdr_bind ho (car_bind ho' ?_))
  refine wp_seq (hev s form env hs ((hargs.cdr hs ho).car hs ho').ok henv.ok) fun v u hu => savepoint_safe ?_
  refine wp_seq (mlGcProtect_safe hu.1.wf (.inl hu.2)) fun _ w hw => ?_
  have hset : wp M (mlEnvSet env name v) w (fun _ x => w.Good c [] x) (fun _ x => x.WellFormed c) :=
    mlEnvSet_safe hM hw.1.wf ((hu.1.trans hw.1).holdsFrame henv).ok (hw.2 ▸ hu.2)
  refine wp_seq (Q := fun _ x => s.Good c [] x) (wp_onError (wp_andThen ?_)) fun _ x hx => wp_pure ⟨hx, trivial⟩
  refine wp_mono hset (fun _ x hx => hu.1.seq (State.Good.restore (l := []) (hw.1.seq hx))) fun e x hx => ?_
  split
  · exact (hx.restore _).of_eq rfl (fun _ h => h) (fun _ h => h)
  · exact hx.restore _

theorem handleLambda_safe (hs : s.WellFormed c) (hargs : s.Holds c args) (henv : s.HoldsFrame c env) :
    wp M (handleLambda c args env) s (Handled c s) (fun _ u => u.WellFormed c) := by
  refine properListLength_bind hM hs hargs.ok fun n hn => wp_ite (fun _ => raise_safe hs) fun h => ?_
  obtain ⟨k, rfl⟩ := exists_of_not_all h
  obtain ⟨params, body, ho, hl⟩ := (hn _ rfl).cons_inv
  have hparams := hargs.car hs ho
  refine car_bind ho (cdr_bind ho (isPair_bind hparams.ok fun _ _ => wp_ite (fun _ => raise_safe hs) fun _ => ?_))
  exact wp_seq (makeClosure_safe hM hs hparams (hargs.cdr hs ho) hl henv) fun cl u hu => wp_pure hu

omit hM in
theorem bindingOk_bind {β : Type} {pair : Val} {f : Bool → ML β} {Q : β → State → Prop} (hs : s.WellFormed c)
    (hp : s.Holds c pair)
    (h : ∀ b, (b = true → ∃ name rest init, s.heap.Has pair (.pair name rest) ∧ s.heap.Has rest (.pair init mvNil)) →
      wp M (f b) s Q (fun _ u => u.WellFormed c)) :
    wp M (bindingOk pair >>= f) s Q (fun _ u => u.WellFormed c) := by
  refine wp_seq (Q := fun b u => u = s ∧ (b = true → ∃ name rest init, s.heap.Has pair (.pair name rest) ∧
    s.heap.Has rest (.pair init mvNil))) ?_ (fun b u hu => by obtain ⟨rfl, hb⟩ := hu; exact h b hb)
  have hno : wp M (pure false : ML Bool) s (fun b u => u = s ∧ (b = true → ∃ name rest init,
      s.heap.Has pair (.pair name rest) ∧ s.heap.Has rest (.pair init mvNil))) (fun _ u => u.WellFormed c) :=
    wp_pure ⟨rfl, fun h => by cases h⟩
  refine isPair_bind hp.ok fun b hb => wp_ite (fun _ => hno) fun hb' => ?_
  obtain ⟨⟨name, rest⟩, ho⟩ := hb.1 (by simpa using hb')
  have hrest := hp.cdr hs ho
  refine cdr_bind ho (isPair_bind hrest.ok fun b hb => wp_ite (fun _ => hno) fun hb' => ?_)
  obtain ⟨⟨init, last⟩, ho'⟩ := hb.1 (by simpa using hb')
  refine cdr_bind ho (cdr_bind ho' (wp_ite (fun _ => hno) fun hlast => ?_))
  obtain rfl : last = mvNil := by simpa using hlast
  exact car_bind ho (wp_pure ⟨rfl, fun _ => ⟨name, rest, init, ho, ho'⟩⟩)

theorem letrecPredefine_safe {inner : Val} {formName : String} (i : Nat) {cur : Val} {t : State}
    (ht : s.Good c [inner] t) (hinner : t.heap.FrameOk inner) (hcur : t.Holds c cur) :
    wp M (letrecPredefine c inner s.gcProtect.length formName i cur) t
      (fun _ u => s.Good c [inner] u ∧ u.heap.FrameOk inner) (fun _ u => u.WellFormed c) := by
  induction i generalizing cur t with
  | zero => exact wp_timeout hM.total
  | succ i ih =>
    refine isPair_bind hcur.ok fun b hb => wp_ite (fun hb' => ?_) fun _ => wp_pure ⟨ht, hinner⟩
    obtain ⟨⟨pair, d⟩, ho⟩ := hb.1 hb'
    refine car_bind ho (bindingOk_bind ht.wf (hcur.car ht.wf ho) fun b hb => ?_)
    refine wp_ite (fun _ => onErr_restore_safe (raise_safe ht.wf)) fun hb' => ?_
    obtain ⟨name, rest, init, hn, hr⟩ := hb (by simpa using hb')
    refine car_bind hn (wp_seq (onErr_restore_safe (mlEnvDefine_safe hM.toCollects ht.wf hinner trivial))
      fun _ u hu => ?_)
    refine cdr_bind (hu.agree.has_eq hcur.kept ho rfl) ?_
    exact ih (ht.seq hu) (hu.holdsFrame ⟨hinner, ht.pushed (by simp)⟩).ok (hu.holds (hcur.cdr ht.wf ho))

theorem letBindLoop_safe (hev : EvSafe c M ev) {inner initEnv : Val} {formName : String} (i : Nat)
    {cur : Val} {t : State}
    (ht : s.Good c [inner] t) (hinner : t.heap.FrameOk inner) (hinit : t.HoldsFrame c initEnv) (hcur : t.Holds c cur) :
    wp M (letBindLoop c ev inner initEnv s.gcProtect.length formName i cur) t
      (fun _ u => s.Good c [inner] u ∧ u.heap.FrameOk inner) (fun _ u => u.WellFormed c) := by
  induction i generalizing cur t with
  | zero => exact wp_timeout hM.total
  | succ i ih =>
    refine isPair_bind hcur.ok fun b hb => wp_ite (fun hb' => ?_) fun _ => wp_pure ⟨ht, hinner⟩
    obtain ⟨⟨pair, d⟩, ho⟩ := hb.1 hb'
    have hpair := hcur.car ht.wf ho
    refine car_bind ho (bindingOk_bind ht.wf hpair fun b hb => ?_)
    refine wp_ite (fun _ => onErr_restore_safe (raise_safe ht.wf)) fun hb' => ?_
    obtain ⟨name, rest, init, hn, hr⟩ := hb (by simpa using hb')
    have hform := (hpair.cdr ht.wf hn).car ht.wf hr
    refine car_bind hn (cdr_bind hn (car_bind hr ?_))
    refine wp_seq (onErr_restore_safe (hev t init initEnv ht.wf hform.ok hinit.ok)) fun v u hu => savepoint_safe ?_
    refine wp_seq (onErr_restore_safe (mlGcProtect_safe hu.1.wf (.inl hu.2))) fun _ w hw => ?_
    have hinner' := (hu.1.trans hw.1).holdsFrame ⟨hinner, ht.pushed (by simp)⟩
    refine wp_seq (Q := fun _ x => u.Good c [] x) (onErr_restore_safe (wp_andThen ?_)) fun _ x hx => ?_
    · refine wp_mono (mlEnvDefine_safe hM.toCollects hw.1.wf hinner'.ok (hw.2 ▸ hu.2)) (fun _ x hx => ?_)
        fun _ _ h => h.restore _
      exact State.Good.restore (l := []) (hw.1.seq hx)
    · have hx' := hu.1.seq hx
      refine cdr_bind (hx'.agree.has_eq hcur.kept ho rfl) ?_
      exact ih (ht.seq hx') (hx'.holdsFrame ⟨hinner, ht.pushed (by simp)⟩).ok (hx'.holdsFrame hinit)
        (hx'.holds (hcur.cdr ht.wf ho))

theorem handleLetFamily_safe (hev : EvSafe c M ev) {starlike recursive : Bool} {formName : String} (hs : s.WellFormed c)
    (hargs : s.Holds c args) (henv : s.HoldsFrame c env) :
    wp M (handleLetFamily c ev args env starlike recursive formName) s (Handled c s) (fun _ u => u.WellFormed c) := by
  refine properListLength_bind hM hs hargs.ok fun n hn => wp_ite (fun _ => raise_safe hs) fun h => ?_
  obtain ⟨k, rfl⟩ := exists_of_not_all h
  obtain ⟨bindings, body, ho, -⟩ := (hn _ rfl).cons_inv
  have hbindings := hargs.car hs ho
  refine car_bind ho (cdr_bind ho (properListLength_bind hM hs hbindings.ok fun n _ => ?_))
  cases n with
  | none => exact raise_safe hs
  | some blen =>
    have hframe : s.heap.ObjOk (.env env [] 0) := ⟨.inr henv.ok, fun _ h => by cases h⟩
    refine wp_seq (gcAlloc_safe hM hs hframe ?_) fun inner t ht => savepoint_safe ?_
    · intro v hv
      simp only [Obj.refs, List.flatMap_nil, List.mem_singleton] at hv
      exact hv ▸ henv.kept
    have hinner : t.heap.FrameOk inner := ⟨⟨env, [], 0⟩, ht.2⟩
    refine wp_seq (mlGcProtect_safe ht.1.wf (.inr hinner)) fun _ u hu => ?_
    have hbody : ∀ initEnv u, (initEnv = inner ∨ initEnv = env) → t.Good c [inner] u → u.heap.FrameOk inner → wp M (do
        letBindLoop c ev inner initEnv t.gcProtect.length formName (blen + 1) bindings
        (beginTco ev body inner).andThen (mlGcRestore t.gcProtect.length)) u (Handled c s)
          (fun _ u => u.WellFormed c) := by
      intro initEnv u hinit hu hinner
      have hu' := ht.1.trans hu
      have hinit' : u.HoldsFrame c initEnv := by
        rcases hinit with rfl | rfl
        · exact ⟨hinner, hu.pushed (by simp)⟩
        · exact hu'.holdsFrame henv
      refine wp_seq (letBindLoop_safe hM hev _ hu hinner hinit' (hu'.holds hbindings)) fun _ w hw => ?_
      have hw' := ht.1.trans hw.1
      refine wp_andThen (wp_mono (beginTco_safe hM hev hw.1.wf (hw'.holds (hargs.cdr hs ho))
        ⟨hw.2, hw.1.pushed (by simp)⟩) ?_ fun _ _ h => h.restore _)
      exact fun r x hx => ⟨ht.1.seq (State.Good.restore (l := []) (hw.1.seq hx.1)), hx.2⟩
    have hinit : (if starlike = true then inner else if recursive = true then inner else env) = inner ∨
        (if starlike = true then inner else if recursive = true then inner else env) = env := by
      split
      · exact .inl rfl
      · split
        · exact .inl rfl
        · exact .inr rfl
    have hu' := ht.1.trans hu.1
    refine wp_ite (fun _ => ?_) fun _ => hbody _ u hinit hu.1 (hu.2 ▸ hinner)
    refine wp_seq (letrecPredefine_safe hM _ hu.1 (hu.2 ▸ hinner) (hu'.holds hbindings)) fun _ w hw => ?_
    exact hbody _ w hinit hw.1 hw.2

theorem handleAndOr_safe (hev : EvSafe c M ev) {isOr : Bool} (hs : s.WellFormed c) (hargs : s.Holds c args)
    (henv : s.HoldsFrame c env) :
    wp M (handleAndOr ev args env isOr) s (Handled c s) (fun _ u => u.WellFormed c) := by
  have hloop : ∀ i args t, s.Good c [] t → t.Holds c args → t.HoldsFrame c env → t.heap.IsList args i →
      wp M (andOrLoop ev env isOr i args) t (Handled c s) (fun _ u => u.WellFormed c) := by
    intro i
    induction i with
    | zero => exact fun _ _ _ _ _ _ => wp_timeout hM.total
    | succ i ih =>
      intro args t ht hargs henv hl
      obtain ⟨a, d, ho, hd⟩ := hl.cons_inv
      have hd' := hargs.cdr ht.wf ho
      have ha := hargs.car ht.wf ho
      refine cdr_bind ho (isPair_bind hd'.ok fun b _ => wp_ite (fun _ => car_bind ho ?_) fun _ => car_bind ho ?_)
      · refine wp_seq (hev t a env ht.wf ha.ok henv.ok) fun v u hu => ?_
        refine wp_ite (fun _ => wp_pure ⟨ht.seq hu.1, hu.2⟩) fun _ => ?_
        refine cdr_bind (hu.1.agree.has_eq hargs.kept ho rfl) ?_
        exact ih d u (ht.seq hu.1) (hu.1.holds hd') (hu.1.holdsFrame henv) (hu.1.agree.isList hd'.kept hd)
      · exact wp_pure ⟨ht, ha.ok, henv.ok⟩
  refine wp_ite (fun _ => wp_pure ⟨.refl hs, by cases isOr <;> trivial⟩) fun _ => ?_
  refine properListLength_bind hM hs hargs.ok fun n hn => ?_
  cases n with
  | none => exact raise_safe hs
  | some n => exact hloop n args s (.refl hs) hargs henv (hn n rfl)

theorem handleCond_safe (hev : EvSafe c M ev) (hs : s.WellFormed c) (hargs : s.Holds c args)
    (henv : s.HoldsFrame c env) :
    wp M (handleCond c ev args env) s (Handled c s) (fun _ u => u.WellFormed c) := by
  have hloop : ∀ i cur t, s.Good c [] t → t.Holds c cur → t.HoldsFrame c env →
      wp M (condLoop c ev env i cur) t (Handled c s) (fun _ u => u.WellFormed c) := by
    intro i
    induction i with
    | zero => exact fun _ _ _ _ _ => wp_timeout hM.total
    | succ i ih =>
      intro cur t ht hcur henv
      refine isPair_bind hcur.ok fun b hb => wp_ite (fun hb' => ?_) fun _ => wp_pure ⟨ht, trivial⟩
      obtain ⟨⟨clause, d⟩, ho⟩ := hb.1 hb'
      have hclause := hcur.car ht.wf ho
      refine car_bind ho (isPair_bind hclause.ok fun b hb => wp_ite (fun _ => raise_safe ht.wf) fun hb' => ?_)
      obtain ⟨⟨test, body⟩, ho'⟩ := hb.1 (by simpa using hb')
      have hbody := hclause.cdr ht.wf ho'
      have hbegin : ∀ {u}, t.Good c [] u → wp M (beginTco ev body env) u (Handled c s) (fun _ u => u.WellFormed c) :=
        fun {u} hu => wp_mono (beginTco_safe hM hev hu.wf (hu.holds hbody) (hu.holdsFrame henv))
          (fun _ _ h => ⟨(ht.seq hu).seq h.1, h.2⟩) (fun _ _ h => h)
      refine car_bind ho' (cdr_bind ho' (wp_ite (fun _ => hbegin (.refl ht.wf)) fun _ => ?_))
      refine wp_seq (hev t test env ht.wf (hclause.car ht.wf ho').ok henv.ok) fun v u hu => ?_
      refine wp_ite (fun _ => wp_ite (fun _ => wp_pure ⟨ht.seq hu.1, hu.2⟩) fun _ => hbegin hu.1) fun _ => ?_
      refine cdr_bind (hu.1.agree.has_eq hcur.kept ho rfl) ?_
      exact ih d u (ht.seq hu.1) (hu.1.holds (hcur.cdr ht.wf ho)) (hu.1.holdsFrame henv)
  refine properListLength_bind hM hs hargs.ok fun n _ => ?_
  cases n with
  | none => exact raise_safe hs
  | some n => exact hloop _ args s (.refl hs) hargs henv

theorem dispatch_safe (hev : EvSafe c M ev) {head rest : Val} (hs : s.WellFormed c) (hrest : s.Holds c rest)
    (henv : s.HoldsFrame c env) :
    wp M (dispatch c ev head rest env) s (fun r u => s.Good c [] u ∧ (r = .notHandled ∨ r.Ok u.heap))
      (fun _ u => u.WellFormed c) := by
  have hsome : ∀ {m : ML SfResult}, wp M m s (Handled c s) (fun _ u => u.WellFormed c) →
      wp M m s (fun r u => s.Good c [] u ∧ (r = .notHandled ∨ r.Ok u.heap)) (fun _ u => u.WellFormed c) :=
    fun h => wp_mono h (fun _ _ h => ⟨h.1, .inr h.2⟩) (fun _ _ h => h)
  have hlet : ∀ starlike recursive formName, wp M (handleLetFamily c ev rest env starlike recursive formName) s
      (Handled c s) (fun _ u => u.WellFormed c) := fun _ _ _ => handleLetFamily_safe hM hev hs hrest henv
  refine wp_ite (fun _ => hsome (handleQuote_safe hM hs hrest)) fun _ => ?_
  refine wp_ite (fun _ => hsome (handleIf_safe hM hev hs hrest henv)) fun _ => ?_
  refine wp_ite (fun _ => hsome (handleDefine_safe hM hev hs hrest henv)) fun _ => ?_
  refine wp_ite (fun _ => hsome (handleSetBang_safe hM hev hs hrest henv)) fun _ => ?_
  refine wp_ite (fun _ => hsome (handleLambda_safe hM hs hrest henv)) fun _ => ?_
  refine wp_ite (fun _ => hsome (beginTco_safe hM hev hs hrest henv)) fun _ => ?_
  refine wp_ite (fun _ => hsome (hlet _ _ _)) fun _ => wp_ite (fun _ => hsome (hlet _ _ _)) fun _ => ?_
  refine wp_ite (fun _ => hsome (hlet _ _ _)) fun _ => ?_
  refine wp_ite (fun _ => hsome (handleAndOr_safe hM hev hs hrest henv)) fun _ => ?_
  refine wp_ite (fun _ => hsome (handleAndOr_safe hM hev hs hrest henv)) fun _ => ?_
  exact wp_ite (fun _ => hsome (handleCond_safe hM hev hs hrest henv)) fun _ => wp_pure ⟨.refl hs, .inl rfl⟩

/-! ## One turn of the loop -/

omit hM in
theorem gcProtectGet_bind {β : Type} {i : Nat} {v : Val} {f : Val → ML β} {Q : β → State → Prop}
    {E : Status → State → Prop} (hv : s.gcProtect[i]? = some v) (h : wp M (f v) s Q E) :
    wp M (gcProtectGet i >>= f) s Q E := by
  refine wp_bind (wp_bind (wp_gets ?_))
  rw [hv]
  exact wp_pure h

/-- How a turn ends: with a value, or with a form and a frame in the two slots. -/
def IterOk (c : Config) (s : State) : Iter → State → Prop
  | .done v, t => s.Good c [] t ∧ t.heap.ValOk v
  | .again, t => ∃ form env, s.Good c [form, env] t ∧ t.heap.ValOk form ∧ t.heap.FrameOk env

omit hM in
theorem finish_safe {t : State} {v : Val} {xs : List Val} (ht : s.Good c xs t) (hv : t.heap.ValOk v) :
    wp M (finish s.gcProtect.length v) t (IterOk c s) (fun _ u => u.WellFormed c) :=
  wp_bind (wp_modify (wp_pure ⟨State.Good.restore (l := []) ht, hv⟩))

omit hM in
theorem loopWith_safe {t : State} {f e form env : Val} (ht : s.Good c [f, e] t) (hform : t.heap.ValOk form)
    (henv : t.heap.FrameOk env) :
    wp M (loopWith s.gcProtect.length form env) t (IterOk c s) (fun _ u => u.WellFormed c) := by
  refine wp_bind (wp_modify (wp_bind (wp_modify (wp_pure ⟨form, env, ⟨ht.reached.setSlots, ?_⟩, hform, henv⟩))))
  refine ⟨ht.wf.clear, ht.wf.objs, ht.wf.toplevel, fun v hv => ?_, ht.wf.pending⟩
  rcases List.mem_or_eq_of_mem_set hv with hv | rfl
  · rcases List.mem_or_eq_of_mem_set hv with hv | rfl
    · exact ht.wf.protect v hv
    · exact .inl hform
  · exact .inr henv

theorem applyClosure_safe (hev : EvSafe c M ev) {t : State} {f e proc : Val} {argv : List Val} {cl : Closure}
    (ht : s.Good c ([f, e, proc] ++ argv) t) (hproc : t.heap.ValOk proc) (hcl : t.heap.Has proc cl.obj)
    (hargv : ∀ v ∈ argv, t.Holds c v) :
    wp M (applyClosure c ev s.gcProtect.length (s.gcProtect.length + 2) proc argv) t (IterOk c s)
      (fun _ u => u.WellFormed c) := by
  have hkept : proc.In (t.Kept c) := ht.pushed (by simp)
  refine wp_seq (Q := fun newEnv u => s.Good c [f, e, proc] u ∧ u.heap.Has proc cl.obj ∧ u.heap.FrameOk newEnv)
    (onErr_restore_safe (wp_andThen (wp_mono (applyClosureBind_safe hM ht.wf ⟨hproc, hkept⟩ hcl hargv) ?_
      fun _ _ h => h.unprotect _))) ?_
  · exact fun v u hu => ⟨State.Good.unprotect (l := [f, e, proc]) (ht.seq hu.1), hu.1.agree.has_eq hkept hcl rfl, hu.2⟩
  rintro newEnv u ⟨hu, hcl, hnew⟩
  -- while the leading forms run, the frame is held as a pending one
  let s1 : State := { s with pending := newEnv :: s.pending }
  have hw : s1.Good c [f, e, proc] (pushPending newEnv u) := by
    refine ⟨{ hu.reached with pending := by simp [pushPending, hu.reached.pending, s1] }, ?_⟩
    refine ⟨hu.wf.clear, hu.wf.objs, hu.wf.toplevel, hu.wf.protect, fun v hv => ?_⟩
    rcases List.mem_cons.1 hv with rfl | hv
    · exact hnew
    · exact hu.wf.pending v hv
  have hcl' : (pushPending newEnv u).heap.Has proc cl.obj := hcl
  have hbody : (pushPending newEnv u).Holds c cl.body := by
    obtain ⟨a, -, ha⟩ := id hcl'
    obtain ⟨-, -, -, hb, -⟩ : (pushPending newEnv u).heap.ObjOk cl.obj := hw.wf.objs a _ ha
    exact ⟨hb, State.kept_field (hw.pushed (by simp)) hcl' (by simp [Closure.obj, Obj.fixedRefs])⟩
  have hframe : (pushPending newEnv u).HoldsFrame c newEnv :=
    ⟨hnew, State.kept_of_held (by simp [State.held, pushPending])⟩
  have hpop : ∀ x : State, x.WellFormed c → (mlGcRestore (s.gcProtect.length + 2) (popPending x)).WellFormed c :=
    fun x hx => (hx.of_eq (t := popPending x) rfl (fun _ h => h) fun _ h => List.mem_of_mem_tail h).restore _
  refine closureFields_bind hcl (wp_bind (wp_modify ?_))
  refine wp_seq (Q := fun r x => s.Good c [f, e] x ∧ r.Ok x.heap) (onErr_restore_safe (wp_andThen
    (wp_mono (beginTco_safe hM hev hw.wf hbody hframe) (fun r x hx => ?_) fun _ x h => hpop x h))) fun r x hx => ?_
  · have hx' := (hw.seq hx.1).reached
    refine ⟨⟨?_, hpop x hx.1.wf⟩, hx.2⟩
    exact State.At.restore (l := [f, e]) (r := [proc])
      { hx' with pending := by simp [popPending, hx'.pending, s1] }
  · cases r with
    | tco form env => exact loopWith_safe hx.1 hx.2.1 hx.2.2
    | value v => exact finish_safe hx.1 hx.2
    | notHandled => exact hx.2.elim

theorem applyPrim_safe {t : State} {f e proc : Val} {argv : List Val} {p : Primitive}
    (ht : s.Good c ([f, e, proc] ++ argv) t) (hp : t.heap.Has proc p.obj) (hargv : ∀ v ∈ argv, t.Holds c v) :
    wp M (applyPrim c s.gcProtect.length (s.gcProtect.length + 2) proc argv) t (IterOk c s)
      (fun _ u => u.WellFormed c) := by
  refine wp_seq (primFields_wp fun _ => ⟨p, hp⟩) ?_
  rintro p t ⟨rfl, hp⟩
  refine wp_ite (fun _ => ?_) fun h => ?_
  · exact wp_onErr (wp_mono (raise_safe (Q := fun _ _ => False) ht.wf) (fun _ _ h => h.elim)
      fun _ _ h => (h.unprotect _).restore _)
  · obtain ⟨a, -, ha⟩ := hp
    have hreads : p.fn.reads ≤ p.arityMin.toNat := kPrimitives_reads _ (ht.wf.objs a _ ha)
    have hlen : p.fn.reads ≤ argv.length := by
      simp only [Bool.or_eq_true, decide_eq_true_eq, not_or, Nat.not_lt] at h
      omega
    refine wp_seq (Q := fun v u => s.Good c [f, e] u ∧ u.heap.ValOk v) (onErr_restore_safe (wp_andThen
      (wp_mono (callPrim_safe hM ht.wf hargv hlen) (fun v u hu => ⟨?_, hu.2⟩) fun _ _ h => (h.unprotect _).restore _)))
      fun v u hu => finish_safe hu.1 hu.2
    have hu' : s.Good c [f, e, proc] (mlGcUnprotect argv.length u) :=
      State.Good.unprotect (l := [f, e, proc]) (ht.seq hu.1)
    exact State.Good.restore (l := [f, e]) (r := [proc]) hu'

theorem evalCall_safe (hev : EvSafe c M ev) {t : State} {f e head rest : Val} (ht : s.Good c [f, e] t)
    (hhead : t.heap.ValOk head) (hrest : t.Holds c rest) (henv : t.HoldsFrame c env) :
    wp M (evalCall c ev s.gcProtect.length head rest env) t (IterOk c s) (fun _ u => u.WellFormed c) := by
  refine wp_seq (onErr_restore_safe (hev t head env ht.wf hhead henv.ok)) fun proc u hu => ?_
  refine wp_bind (wp_gets (wp_seq (onErr_restore_safe (mlGcProtect_safe hu.1.wf (.inl hu.2))) fun _ w hw => ?_))
  have htw : t.Good c [proc] w := hu.1.trans hw.1
  have hproc : w.Holds c proc := ⟨hw.2 ▸ hu.2, htw.pushed (by simp)⟩
  refine wp_seq (onErr_restore_safe (evalArgList_safe hM hev hw.1.wf (htw.holds hrest) (htw.holdsFrame henv))) ?_
  rintro argv x ⟨hx, hargv⟩
  have hproc' := hx.holds hproc
  have hx' : s.Good c ([f, e, proc] ++ argv) x := (ht.trans htw).trans hx
  have hsp : u.gcProtect.length = s.gcProtect.length + 2 := by
    rw [hu.1.reached.protect, ht.reached.protect]
    simp
  rw [hsp]
  refine wp_bind (wp_emit fun _ => ⟨hM.called argv, wp_seq (mlIsPrim_wp fun _ => hproc'.ok.holds) ?_⟩)
  rintro b x ⟨rfl, hb⟩
  refine wp_ite (fun hb' => ?_) fun _ => ?_
  · obtain ⟨p, hp⟩ := hb.1 hb'
    exact applyPrim_safe hM hx' hp hargv
  · refine wp_seq (mlIsClosure_wp fun _ => hproc'.ok.holds) ?_
    rintro b x ⟨rfl, hb⟩
    refine wp_ite (fun hb' => ?_) fun _ => wp_bind (wp_modify ?_)
    · obtain ⟨cl, hcl⟩ := hb.1 hb'
      exact applyClosure_safe hM hev hx' hproc'.ok hcl hargv
    · exact onErr_restore_safe (raise_safe (hx'.wf.unprotect _))

theorem evalPair_safe (hev : EvSafe c M ev) {t : State} {f e form : Val} (ht : s.Good c [f, e] t)
    (hform : t.Holds c form)
    {a d : Val} (ho : t.heap.Has form (.pair a d)) (henv : t.HoldsFrame c env) :
    wp M (evalPair c ev s.gcProtect.length form env) t (IterOk c s) (fun _ u => u.WellFormed c) := by
  have ha := hform.car ht.wf ho
  have hd := hform.cdr ht.wf ho
  have hcall : ∀ u, t.Good c [] u → wp M (evalCall c ev s.gcProtect.length a d env) u (IterOk c s)
      (fun _ u => u.WellFormed c) :=
    fun u hu => evalCall_safe hM hev (ht.seq hu) (hu.holds ha).ok (hu.holds hd) (hu.holdsFrame henv)
  refine car_bind ho (cdr_bind ho (wp_ite (fun _ => ?_) fun _ => hcall t (.refl ht.wf)))
  refine wp_seq (onErr_restore_safe (dispatch_safe hM hev ht.wf hd henv)) fun r u hu => ?_
  obtain ⟨hgood, hr⟩ := hu
  have hu' := ht.seq hgood
  cases r with
  | value v => exact finish_safe hu' (hr.resolve_left (by simp))
  | tco form env => exact loopWith_safe hu' (hr.resolve_left (by simp)).1 (hr.resolve_left (by simp)).2
  | notHandled => exact hcall u hgood

theorem evalIter_safe (hev : EvSafe c M ev) {t : State} {form env : Val} (ht : s.Good c [form, env] t)
    (hform : t.heap.ValOk form) (henv : t.heap.FrameOk env) :
    wp M (evalIter c ev s.gcProtect.length) t (IterOk c s) (fun _ u => u.WellFormed c) := by
  have henv' : t.HoldsFrame c env := ⟨henv, ht.pushed (by simp)⟩
  refine gcProtectGet_bind (v := form) (by simp [ht.reached.protect]) ?_
  refine gcProtectGet_bind (v := env) (by simp [ht.reached.protect]) ?_
  cases form with
  | fix p => exact finish_safe ht hform
  | imm i => exact finish_safe ht hform
  | sym i =>
    refine wp_seq (Q := fun v u => u = t ∧ t.heap.ValOk v) (onErr_restore_safe (wp_onError
      (wp_mono (mlEnvLookup_safe hM ht.wf henv) (fun _ _ h => h) ?_))) ?_
    · rintro e u rfl
      split
      · exact ht.wf.of_eq rfl (fun _ h => h) (fun _ h => h)
      · exact ht.wf
    · rintro v u ⟨rfl, hv⟩
      exact finish_safe ht hv
  | obj a =>
    refine isPair_bind hform fun b hb => wp_ite (fun hb' => ?_) fun _ => finish_safe ht hform
    obtain ⟨⟨x, y⟩, ho⟩ := hb.1 hb'
    exact evalPair_safe hM hev ht ⟨hform, ht.pushed (by simp)⟩ ho henv'
  | reserved w => exact hform.elim

theorem evalBody_safe (hev : EvSafe c M ev) {form env : Val} (turns : Nat) (hs : s.WellFormed c)
    (hform : s.heap.ValOk form) (henv : s.heap.FrameOk env) :
    wp M (evalBody c ev turns form env) s (fun v u => s.Good c [] u ∧ u.heap.ValOk v) (fun _ u => u.WellFormed c) := by
  have hloop : ∀ turns t, IterOk c s .again t → wp M (evalLoop c ev s.gcProtect.length turns) t
      (fun v u => s.Good c [] u ∧ u.heap.ValOk v) (fun _ u => u.WellFormed c) := by
    intro turns
    induction turns with
    | zero => exact fun _ _ => wp_timeout hM.total
    | succ turns ih =>
      rintro t ⟨form, env, ht, hform, henv⟩
      refine wp_seq (evalIter_safe hM hev ht hform henv) fun i u hu => ?_
      cases i with
      | done v => exact wp_pure hu
      | again => exact ih u hu
  refine savepoint_safe (wp_seq (mlGcProtect_safe hs (.inl hform)) fun _ t ht => ?_)
  refine wp_seq (onErr_restore_safe (mlGcProtect_safe ht.1.wf (.inr (ht.2 ▸ henv)))) fun _ u hu => ?_
  have hheap : u.heap = s.heap := hu.2.trans ht.2
  exact hloop turns u ⟨form, env, ht.1.trans hu.1, hheap ▸ hform, hheap ▸ henv⟩

end Handlers

/-- Every evaluation of a value in a frame returns a value, never gets stuck, and keeps the
state well-formed. -/
theorem mlEval_safe {c : Config} {M : Mode Event} (hM : EvalMode c M) (n : Nat) : EvSafe c M (mlEval c n) := by
  induction n with
  | zero => exact fun _ _ _ _ _ _ => wp_timeout hM.total
  | succ n ih =>
    intro s form env hs hform henv
    refine good_of_keeps (mlEval_keeps (fun _ => trivial) _ _ _ _ _)
      (wp_bind (wp_gets (wp_ite (fun _ => raise_safe hs) ?_)))
    refine fun _ => wp_bind (wp_modify (wp_andThen ?_))
    let s1 : State := { s with evalDepth := s.evalDepth + 1 }
    have hs1 : s1.WellFormed c := hs.of_eq rfl (fun _ h => h) (fun _ h => h)
    have hleave : ∀ u : State, u.WellFormed c → (leaveEval u).WellFormed c := fun u hu =>
      hu.of_eq rfl (fun _ h => h) (fun _ h => h)
    exact wp_mono (evalBody_safe (s := s1) hM ih (n + 1) hs1 hform henv) (fun v u hu => ⟨hleave u hu.1.wf, hu.2⟩)
      fun _ u hu => hleave u hu

end Microlisp
