import Microlisp.Environments
import Microlisp.Language.Heap
/-!
# Frames

What the operations of the language on frames are in the heap. Without collections and with an
allocator that grants every request, the interpreter does to its frames what the language says.
-/
namespace Microlisp

open Prog Microlisp.Language

/-- Why a run ends that the language knows nothing about: memory, the stream, and the depth limits. -/
def Status.isLimit : Status → Bool
  | .errNomem | .errIo | .errEvalDepth | .errPrintDepth | .errEqualDepth => true
  | _ => false

def beyond (x : Halt Status) : Prop := ∃ e, x = .err e ∧ e.isLimit = true

/-- The interpreter, in the state `s`, does what the language says in the world `w`. -/
abbrev Tells {α β : Type} (W : List Nat → α → β → State → Prop) (m : Sem α) (n : ML β) (fs : List Nat) (w : World)
    (s : State) : Prop :=
  Corresponds (fun x => x = .stuck) beyond (fun p _ s p' _ s' => Onward p s p' s') (fun p w s => s.Depicts p w)
    (fun p a b _ s => W p a b s) m n fs w s

/-- The value of the language that a value stands for. -/
def State.Stands (fs : List Nat) (x : Value) (v : Val) (s : State) : Prop := s.heap.Stands s.symtab.entries fs x v

/-- The values that a list of values stands for. -/
def State.Stand (fs : List Nat) (xs : List Value) (vs : List Val) (s : State) : Prop :=
  List.Forall₂ (s.heap.Stands s.symtab.entries fs) xs vs

/-- A datum, as a form. -/
abbrev State.Form (s : State) (d : Datum) (v : Val) : Prop := s.Shows (fun _ => True) d v

section Onwards
variable {fs fs' : List Nat} {s t : State} {x : Value} {v : Val} {d : Datum} {env : List Nat}

theorem State.Stands.later (h : s.Stands fs x v) (hx : Onward fs s fs' t) : t.Stands fs' x v := by
  unfold State.Stands
  rw [hx.symtab]
  exact Heap.Stands.later h hx.heap hx.frames

theorem State.Stand.later {xs : List Value} {vs : List Val} (h : s.Stand fs xs vs) (hx : Onward fs s fs' t) :
    t.Stand fs' xs vs := by
  unfold State.Stand
  rw [hx.symtab]
  exact h.imp fun _ _ h => h.later hx.heap hx.frames

theorem State.Form.later (h : s.Form d v) (hx : Onward fs s fs' t) : t.Form d v := by
  unfold State.Form State.Shows
  rw [hx.symtab]
  exact Heap.Shows.agree h hx.heap

theorem Heap.Chain.onward (h : s.heap.Chain fs env v) (hx : Onward fs s fs' t) : t.heap.Chain fs' env v :=
  h.later hx.heap hx.frames

end Onwards

section Rules
variable {α β α' β' : Type} {W : List Nat → α → β → State → Prop} {U : List Nat → α' → β' → State → Prop}
    {m : Sem α} {n : ML β}
  {fs : List Nat} {w : World} {s : State}

theorem tells_pure {a : α} {b : β} (h : s.Depicts fs w → W fs a b s) : Tells W (pure a : Sem α) (pure b) fs w s :=
  fun hI => ⟨fs, .refl, hI, h hI⟩

theorem tells_fail {e : Status} : Tells W (fail e : Sem α) (fail e) fs w s :=
  .error rfl rfl fun hI => .inr (.inr ⟨rfl, fun _ _ => ⟨fs, .refl, hI⟩⟩)

theorem tells_fails {e : Status} (h : n s = (fail e : ML β) s) : Tells W (fail e : Sem α) n fs w s := .run h tells_fail

/-- The diagnostic is not the language's. -/
theorem raise_tells {line column : Nat} {message : Bytes} {e : Status} :
    Tells W (fail e : Sem α) (raise line column message e : ML β) fs w s :=
  .error rfl rfl fun hI => .inr (.inr ⟨rfl, fun _ _ =>
    ⟨fs, ⟨List.prefix_refl _, (Onward.refl : Onward fs s fs s).heap, rfl⟩, { hI with }⟩⟩)

/-- A change of the state that the language does not see. -/
theorem modify_tells {g : State → State} {a : α} (hg : Unaltered s (g s)) :
    Tells (fun _ _ _ _ => True) (pure a : Sem α) (modify g : ML Unit) fs w s :=
  fun hI => ⟨fs, Onward.refl.quiet hg, hI.quiet hg, trivial⟩

theorem tells_unspecified : Tells W (unspecified : Sem α) n fs w s := .of_left rfl rfl

theorem Tells.bind {f : α → Sem α'} {g : β → ML β'} (h : Tells W m n fs w s)
    (hf : ∀ fs' a b w' s', Onward fs s fs' s' → W fs' a b s' → Tells U (f a) (g b) fs' w' s') :
    Tells U (m >>= f) (n >>= g) fs w s :=
  Corresponds.bind (fun h h' => h.trans h') h hf

/-- What only the interpreter does. -/
theorem Tells.unseen {a : α} {l : Sem α'} {g : β → ML β'} (h : Tells W (pure a : Sem α) n fs w s)
    (hg : ∀ fs' b w' s', Onward fs s fs' s' → W fs' a b s' → Tells U l (g b) fs' w' s') : Tells U l (n >>= g) fs w s :=
  Corresponds.unseen (fun h h' => h.trans h') h fun fs' b s' => hg fs' b w s'

end Rules

/-! ## Bindings -/

section Bindings
variable {h : Heap} {names : List Bytes} {fs : List Nat} {vars : Bindings} {bs : List (Val × Val)} {name : Bytes}
    {x : Value} {n v : Val}

/-- The bindings after a definition. -/
def rebind (name value : Val) (bs : List (Val × Val)) : List (Val × Val) :=
  (assign name value bs).getD (bs ++ [(name, value)])

theorem rebind_cons {b : Val × Val} : rebind n v (b :: bs) = if b.1 = n then (n, v) :: bs else b :: rebind n v bs := by
  unfold rebind
  simp only [assign]
  split
  · rfl
  · cases assign n v bs <;> rfl

theorem rebind_names : bs.map Prod.fst <+: (rebind n v bs).map Prod.fst := by
  induction bs with
  | nil => exact List.nil_prefix
  | cons b bs ih =>
    rw [rebind_cons]
    split
    · rename_i hb
      rw [List.map_cons, List.map_cons, hb]
    · exact List.cons_prefix_cons.2 ⟨rfl, ih⟩

theorem bindName_binds (hbs : List.Forall₂ (h.Binds names fs) vars bs) (hn : h.Stands names fs (.sym name) n)
    (hv : h.Stands names fs x v) : List.Forall₂ (h.Binds names fs) (bindName name x vars) (rebind n v bs) := by
  induction hbs with
  | nil => exact .cons ⟨hn, hv⟩ .nil
  | @cons b b' vars bs hb hbs ih =>
    rw [rebind_cons]
    by_cases hname : b.1 = name
    · rw [bindName, if_pos hname, if_pos ((Heap.stands_sym_iff hb.1 hn).1 hname)]
      exact .cons ⟨hn, hv⟩ hbs
    · rw [bindName, if_neg hname, if_neg fun hb' => hname ((Heap.stands_sym_iff hb.1 hn).2 hb')]
      exact .cons hb ih

/-- The first binding of a name. -/
theorem find_binds (hbs : List.Forall₂ (h.Binds names fs) vars bs) (hn : h.Stands names fs (.sym name) n) :
    Option.Rel (h.Binds names fs) (vars.find? fun b => b.1 = name) (bs.find? fun b => b.1 = n) := by
  induction hbs with
  | nil => exact .none
  | @cons b b' vars bs hb hbs ih =>
    have hiff := Heap.stands_sym_iff hb.1 hn
    by_cases hname : b.1 = name
    · rw [List.find?_cons_of_pos (by simpa using hname), List.find?_cons_of_pos (by simpa using hiff.1 hname)]
      exact .some hb
    · rw [List.find?_cons_of_neg (by simpa using hname), List.find?_cons_of_neg
        (by simpa using fun hb' => hname (hiff.2 hb'))]
      exact ih

theorem assign_binds (hbs : List.Forall₂ (h.Binds names fs) vars bs) (hn : h.Stands names fs (.sym name) n) :
    (vars.any fun b => b.1 = name) = (assign n v bs).isSome := by
  induction hbs with
  | nil => rfl
  | @cons b b' vars bs hb hbs ih =>
    have hiff := Heap.stands_sym_iff hb.1 hn
    simp only [List.any_cons, assign, ih]
    by_cases hname : b.1 = name
    · simp [hname, hiff.1 hname]
    · have hne := mt hiff.2 hname
      simp [hname, hne]

end Bindings

/-! ## Changing a frame -/

section Changes
variable {fs : List Nat} {w : World} {s t : State} {k a : Nat} {f : Frame} {name : Bytes} {x : Value}
    {n v : Val} {cap : Nat}

/-- The frame of a number, with another binding. -/
theorem State.Depicts.bind (h : s.Depicts fs w) (hk : fs[k]? = some a) (hf : s.heap.get a = some f.obj)
    (hn : s.Stands fs (.sym name) n) (hv : s.Stands fs x v)
    (ht : t = { s with heap := s.heap.set a (.env f.parent (rebind n v f.bindings) cap), allocs := t.allocs }) :
    Onward fs s fs t ∧ t.Depicts fs (w.bind name x k) := by
  have hagree : s.heap.Agree (fun _ => True) t.heap := by
    rw [ht]
    exact Heap.agree_set hf rebind_names
  refine ⟨⟨List.prefix_refl _, hagree, by rw [ht]⟩, ?_⟩
  have hlater : ∀ {vars bs}, List.Forall₂ (s.heap.Binds s.symtab.entries fs) vars bs →
      List.Forall₂ (t.heap.Binds t.symtab.entries fs) vars bs := by
    intro vars bs hbs
    rw [show t.symtab = s.symtab by rw [ht]]
    exact hbs.imp fun _ _ hb => hb.later hagree (List.prefix_refl _)
  refine ⟨?_, ?_, h.distinct, ?_, ?_, ?_, ?_⟩
  · intro j a' hj
    by_cases hja : j = k
    · subst hja
      cases hk.symm.trans hj
      obtain ⟨f', hf', hbs⟩ := h.frames j a hk
      obtain rfl : f' = f := Frame.obj_inj (Option.some.inj (hf'.symm.trans hf))
      refine ⟨⟨f'.parent, rebind n v f'.bindings, cap⟩, ?_, ?_⟩
      · rw [ht]
        simp only [Heap.get_set, if_true, hf]
        rfl
      · have hlt : j < w.frames.length := h.count ▸ (List.getElem?_eq_some_iff.1 hk).1
        have hvars : (w.bind name x j).vars j = bindName name x (w.vars j) := by
          unfold World.bind World.vars
          simp [List.getElem?_eq_getElem hlt]
        rw [hvars]
        exact hlater (bindName_binds hbs hn hv)
    · obtain ⟨f', hf', hbs⟩ := h.frames j a' hj
      have hne : a' ≠ a := by
        rintro rfl
        exact hja ((List.getElem?_inj (List.getElem?_eq_some_iff.1 hj).1 h.distinct).1 (hj.trans hk.symm))
      refine ⟨f', ?_, ?_⟩
      · rw [ht]
        simp only [Heap.get_set, if_neg hne, hf']
      · have hvars : (w.bind name x k).vars j = w.vars j := by
          unfold World.bind World.vars
          simp [Ne.symm hja]
        rw [hvars]
        exact hlater hbs
  · simpa [World.bind] using h.count
  · rw [ht]
    exact h.names
  · rw [ht]
    exact h.output
  · rw [ht]
    exact h.printDepth
  · rw [ht]
    exact h.equalDepth

theorem mlIsSym_stands {h : Heap} {names : List Bytes} (hn : h.Stands names fs (.sym name) n) : mlIsSym n = true := by
  obtain ⟨i, rfl, -⟩ := hn
  rfl

variable {c : Config} (hc : ∀ n size, c.alloc n size = true)
include hc

theorem rawAllocOrFail_fully {size : Nat} (hsize : size ≠ 0) {E : Status → State → Prop} :
    wp Mode.fully (rawAllocOrFail c size) s (fun _ t => t = { s with allocs := t.allocs }) E := by
  apply wp_mono rawAllocOrFail_wp (fun _ _ h => h)
  rintro e t ⟨-, hzero | ⟨i, hi⟩, -⟩
  · exact absurd hzero hsize
  · rw [hc] at hi
    cases hi

/-- `ml_env_define` on a frame. -/
theorem mlEnvDefine_fully (hf : s.heap.get a = some f.obj) (hn : mlIsSym n = true) {E : Status → State → Prop} :
    wp Mode.fully (mlEnvDefine c (.obj a) n v) s
      (fun _ t => ∃ cap,
        t = { s with heap := s.heap.set a (.env f.parent (rebind n v f.bindings) cap), allocs := t.allocs }) E := by
  have hhas : s.heap.Has (.obj a) f.obj := ⟨a, rfl, hf⟩
  have hholds : s.heap.Holds (.obj a) := by
    rintro _ ⟨⟩ -
    exact ⟨_, hf⟩
  have hwrite : ∀ (u : State) bs cap, u = { s with allocs := u.allocs } → bs = rebind n v f.bindings →
      wp Mode.fully (writeObj (.obj a) (.env f.parent bs cap)) u
        (fun _ t => ∃ cap, t =
          { s with heap := s.heap.set a (.env f.parent (rebind n v f.bindings) cap), allocs := t.allocs }) E := by
    intro u bs cap hu hbs
    apply wp_mono (writeObj_wp (fun _ => ⟨a, rfl⟩) fun _ _ => trivial) _ fun _ _ h => h
    rintro _ t ⟨_, ⟨⟩, rfl⟩
    refine ⟨cap, ?_⟩
    rw [hu, hbs]
  apply wp_seq (mlIsEnv_wp fun _ => hholds)
  rintro isEnv t ⟨rfl, hisEnv⟩
  apply wp_ite
  · intro hnot
    simp [hisEnv.2 ⟨f, hhas⟩, hn] at hnot
  · intro _
    apply wp_seq (envFields_wp fun _ => ⟨f, hhas⟩)
    rintro g t ⟨rfl, hg⟩
    obtain rfl : g = f := Frame.obj_inj (hg.unique hhas)
    cases hassign : assign n v g.bindings with
    | some bs => exact hwrite t bs _ rfl (by rw [rebind, hassign]; rfl)
    | none =>
      have hbs : g.bindings ++ [(n, v)] = rebind n v g.bindings := by
        rw [rebind, hassign]
        rfl
      dsimp only
      split
      · have hpos : ∀ cap : Nat, (if cap = 0 then 8 else cap * 2) * 8 ≠ 0 := by
          intro cap
          split <;> omega
        apply wp_seq (Q := fun _ u => u = { t with allocs := u.allocs })
        · apply wp_seq (rawAllocOrFail_fully hc (hpos _))
          intro _ u hu
          apply wp_seq (rawAllocOrFail_fully hc (hpos _))
          intro _ u' hu'
          exact wp_pure (by rw [hu', hu])
        · intro cap u hu
          exact hwrite u _ cap hu hbs
      · apply wp_seq (Q := fun _ u => u = t) (wp_pure rfl)
        rintro cap u rfl
        exact hwrite u _ cap rfl hbs

/-! ## Operations -/

theorem define_tells {env : List Nat} {e : Val} (hchain : s.heap.Chain fs env e) (hn : s.Stands fs (.sym name) n)
    (hv : s.Stands fs x v) : Tells (fun _ _ _ _ => True) (define env name x) (mlEnvDefine c e n v) fs w s := by
  cases env with
  | nil => exact tells_unspecified
  | cons k env =>
    obtain ⟨a, f, hk, rfl, hf, -, -⟩ := hchain
    apply Corresponds.of_fully (a := ()) rfl (F := fun _ _ => False) _ fun _ _ h => h.elim
    intro hI
    apply wp_mono (mlEnvDefine_fully hc hf (mlIsSym_stands hn)) _ fun _ _ h => h
    rintro _ t ⟨cap, ht⟩
    obtain ⟨hon, hdepicts⟩ := hI.bind hk hf hn hv ht
    exact ⟨fs, hon, hdepicts, trivial⟩

/-- A new frame at the end of the list. -/
theorem newFrame_tells (hd : ∀ s, c.collectDue s = false) {env : List Nat} {e : Val} (hchain : s.heap.Chain fs env e) :
    Tells (fun fs' k v s' => s'.heap.Chain fs' (k :: env) v) newFrame (mlGcAllocEnv c e) fs w s := by
  apply Corresponds.of_fully (a := w.frames.length) rfl (F := fun _ _ => False) _ fun _ _ h => h.elim
  intro hI
  apply wp_mono (gcAlloc_total (fun _ => trivial) hc (hd s) (by decide)) _ fun _ _ h => h
  rintro v t ⟨rfl, ht⟩
  have hheap : t.heap = s.heap.alloc (.env e [] 0) := by rw [ht]
  have hagree : s.heap.Agree (fun _ => True) t.heap := hheap ▸ Heap.agree_alloc
  have hon : Onward fs s (fs ++ [s.heap.next]) t := ⟨List.prefix_append _ _, hagree, by rw [ht]⟩
  have hnew : t.heap.get s.heap.next = some (Frame.obj ⟨e, [], 0⟩) := by
    rw [hheap, Heap.get_alloc, if_pos rfl]
    rfl
  have hlast : (fs ++ [s.heap.next])[w.frames.length]? = some s.heap.next := by
    rw [← hI.count]
    exact List.getElem?_concat_length
  have hold : ∀ x, e = .obj x → x < s.heap.next := by
    rintro x rfl
    cases env with
    | nil => cases hchain
    | cons j env =>
      obtain ⟨a, f, -, ⟨⟩, hf, -⟩ := hchain
      exact (Heap.lt_next_of_get hf).2
  refine ⟨fs ++ [s.heap.next], hon, ?_, s.heap.next, ⟨e, [], 0⟩, hlast, rfl, hnew, hold, hchain.onward hon⟩
  refine ⟨?_, ?_, ?_, ?_, ?_, ?_, ?_⟩
  · intro j a hj
    by_cases hlt : j < fs.length
    · rw [List.getElem?_append_left hlt] at hj
      obtain ⟨f, hf, hbs⟩ := hI.frames j a hj
      refine ⟨f, ?_, ?_⟩
      · rw [hheap, Heap.get_alloc, if_neg (Nat.ne_of_lt (Heap.lt_next_of_get hf).2), hf]
      · have hvars : World.vars ⟨w.frames ++ [[]], w.output⟩ j = w.vars j := by
          unfold World.vars
          rw [List.getElem?_append_left (hI.count ▸ hlt)]
        rw [show t.symtab = s.symtab by rw [ht]]
        exact hvars ▸ hbs.imp fun _ _ hb => hb.later hagree hon.frames
    · have hj' := hj
      obtain ⟨hjlt, -⟩ := List.getElem?_eq_some_iff.1 hj
      obtain rfl : j = fs.length := by
        simp only [List.length_append, List.length_singleton] at hjlt
        omega
      rw [List.getElem?_concat_length] at hj
      cases hj
      refine ⟨⟨e, [], 0⟩, hnew, ?_⟩
      have hvars : World.vars ⟨w.frames ++ [[]], w.output⟩ fs.length = [] := by
        unfold World.vars
        rw [hI.count, List.getElem?_concat_length]
        rfl
      exact hvars ▸ .nil
  · show (fs ++ [s.heap.next]).length = (w.frames ++ [[]]).length
    simpa using hI.count
  · rw [List.nodup_append]
    refine ⟨hI.distinct, List.nodup_singleton _, ?_⟩
    rintro a ha _ hb rfl
    cases List.mem_singleton.1 hb
    obtain ⟨j, hj⟩ := List.getElem?_of_mem ha
    obtain ⟨f, hf, -⟩ := hI.frames j _ hj
    exact absurd (Heap.lt_next_of_get hf).2 (Nat.lt_irrefl _)
  · rw [ht]
    exact hI.names
  · rw [ht]
    exact hI.output
  · rw [ht]
    exact hI.printDepth
  · rw [ht]
    exact hI.equalDepth

/-- A new object that is no frame. -/
theorem gcAlloc_tells (hd : ∀ s, c.collectDue s = false) {α : Type} {a : α} {size : Nat} {o : Obj}
    {W : List Nat → α → Val → State → Prop}
    (hsize : size ≠ 0) (ho : ∀ v t, Onward fs s fs t → t.heap.Has v o → W fs a v t) :
    Tells W (pure a : Sem α) (gcAlloc c size o) fs w s := by
  apply Corresponds.of_fully rfl (F := fun _ _ => False) _ fun _ _ h => h.elim
  intro hI
  apply wp_mono (gcAlloc_total (fun _ => trivial) hc (hd s) hsize) _ fun _ _ h => h
  rintro v t ⟨rfl, ht⟩
  have hheap : t.heap = s.heap.alloc o := by rw [ht]
  have hagree : s.heap.Agree (fun _ => True) t.heap := hheap ▸ Heap.agree_alloc
  have hon : Onward fs s fs t := ⟨List.prefix_refl _, hagree, by rw [ht]⟩
  refine ⟨fs, hon, ⟨?_, hI.count, hI.distinct, ?_, ?_, ?_, ?_⟩, ho _ t hon ⟨_, rfl, ?_⟩⟩
  · intro j a' hj
    obtain ⟨f, hf, hbs⟩ := hI.frames j a' hj
    refine ⟨f, ?_, ?_⟩
    · rw [hheap, Heap.get_alloc, if_neg (Nat.ne_of_lt (Heap.lt_next_of_get hf).2), hf]
    · rw [show t.symtab = s.symtab by rw [ht]]
      exact hbs.imp fun _ _ hb => hb.later hagree (List.prefix_refl _)
  · rw [ht]
    exact hI.names
  · rw [ht]
    exact hI.output
  · rw [ht]
    exact hI.printDepth
  · rw [ht]
    exact hI.equalDepth
  · rw [hheap, Heap.get_alloc, if_pos rfl]

theorem pair_tells (hd : ∀ s, c.collectDue s = false) {x y : Value} {a d : Val} (ha : s.Stands fs x a)
    (hb : s.Stands fs y d) :
    Tells State.Stands (pure (.pair x y) : Sem Value) (mlGcAllocPair c a d) fs w s :=
  gcAlloc_tells hc hd (by decide) fun _ _ hon ho => ⟨a, d, ho, ha.later hon, hb.later hon⟩

end Changes

/-! ## Walks -/

section Walks
variable {fs : List Nat} {w : World} {s : State} {env : List Nat} {e : Val} {name : Bytes} {x : Value}
    {n v : Val} {k a : Nat}

/-- An environment is no longer than the heap. -/
theorem Heap.Chain.length_le {h : Heap} (hchain : h.Chain fs env e) : env.length ≤ h.next := by
  have hlt : ∀ (env : List Nat) a, h.Chain fs env (.obj a) → env.length ≤ a := by
    intro env
    induction env with
    | nil => nofun
    | cons k env ih =>
      rintro _ ⟨a, f, -, ⟨⟩, hf, hold, hrest⟩
      cases env with
      | nil => exact (Heap.lt_next_of_get hf).1
      | cons j env =>
        obtain ⟨b, g, hj, hparent, hrest'⟩ := id hrest
        rw [hparent] at hrest
        have := ih b hrest
        have := hold b hparent
        simp only [List.length_cons] at *
        omega
  cases env with
  | nil => exact Nat.zero_le _
  | cons k env =>
    obtain ⟨a, f, -, rfl, hf, -⟩ := id hchain
    exact Nat.le_trans (hlt _ a hchain) (Nat.le_of_lt (Heap.lt_next_of_get hf).2)

theorem mlIsEnv_run {f : Frame} {α : Type} {g : Bool → ML α} (hf : s.heap.get a = some f.obj) :
    (mlIsEnv (.obj a) >>= g) s = g true s := by
  cases a with
  | zero => cases hf.symm.trans Heap.get_zero
  | succ a =>
    unfold mlIsEnv isObjType readObj
    simp only [bind_assoc]
    rw [gets_bind_run, hf]
    simp only [pure_bind]
    rfl

theorem envFields_run {f : Frame} {α : Type} {g : Frame → ML α} (hf : s.heap.Has v f.obj) :
    (envFields v >>= g) s = g f s := by
  unfold envFields
  rw [bind_assoc, asObj_run hf]
  exact pure_bind_run

theorem mlIsEnv_nil {α : Type} {g : Bool → ML α} : (mlIsEnv mvNil >>= g) s = g false s := pure_bind_run

theorem lookup_tells (hchain : s.heap.Chain fs env e) (hn : s.Stands fs (.sym name) n) :
    Tells State.Stands (lookup name env) (mlEnvLookup e n) fs w s := by
  have hloop : ∀ bound env e, env.length < bound → s.heap.Chain fs env e →
      Tells State.Stands (lookup name env) (envLookupLoop n bound e) fs w s := by
    intro bound
    induction bound with
    | zero => exact fun _ _ h => absurd h (Nat.not_lt_zero _)
    | succ bound ih =>
      intro env e hlt hchain
      cases env with
      | nil =>
        cases hchain
        apply tells_fails
        unfold envLookupLoop
        rw [mlIsEnv_nil]
        rfl
      | cons k env =>
        obtain ⟨a, f, hk, rfl, hf, -, hrest⟩ := hchain
        apply Corresponds.given
        intro hI
        obtain ⟨f', hf', hbs⟩ := hI.frames k a hk
        obtain rfl : f' = f := Frame.obj_inj (Option.some.inj (hf'.symm.trans hf))
        have hfind := find_binds hbs hn
        have hrun : envLookupLoop n (bound + 1) (.obj a) s =
            (f'.bindings.find? fun b => b.1 = n).elim (envLookupLoop n bound f'.parent)
              (fun b => (pure b.2 : ML Val)) s := by
          conv_lhs => unfold envLookupLoop
          rw [mlIsEnv_run hf]
          simp only [if_true]
          rw [envFields_run ⟨a, rfl, hf⟩]
          cases f'.bindings.find? fun b => b.1 = n <;> rfl
        have hrun' : lookup name (k :: env) w =
            ((w.vars k).find? fun b => b.1 = name).elim (lookup name env) (fun b => (pure b.2 : Sem Value)) w := by
          conv_lhs => unfold lookup
          rw [gets_bind_run]
          cases (w.vars k).find? fun b => b.1 = name <;> rfl
        refine Corresponds.run hrun (.run_left hrun' ?_)
        cases hfound : (w.vars k).find? fun b => b.1 = name with
        | none =>
          rw [hfound] at hfind
          generalize f'.bindings.find? (fun b => b.1 = n) = found at hfind
          cases hfind
          exact ih env f'.parent (by simpa using hlt) hrest
        | some b =>
          rw [hfound] at hfind
          generalize f'.bindings.find? (fun b => b.1 = n) = found at hfind
          cases hfind with
          | some hb => exact tells_pure fun _ => hb.2
  have hrun : mlEnvLookup e n s = envLookupLoop n (s.heap.next + 1) e s := by
    unfold mlEnvLookup walkBound
    rw [if_pos (mlIsSym_stands hn), gets_bind_run]
  exact Corresponds.run hrun (hloop _ env e (Nat.lt_succ_of_le hchain.length_le) hchain)

theorem assign_tells (hchain : s.heap.Chain fs env e) (hn : s.Stands fs (.sym name) n) (hv : s.Stands fs x v) :
    Tells (fun _ _ _ _ => True) (Language.assign name x env) (mlEnvSet e n v) fs w s := by
  have hloop : ∀ bound env e, env.length < bound → s.heap.Chain fs env e →
      Tells (fun _ _ _ _ => True) (Language.assign name x env) (envSetLoop n v bound e) fs w s := by
    intro bound
    induction bound with
    | zero => exact fun _ _ h => absurd h (Nat.not_lt_zero _)
    | succ bound ih =>
      intro env e hlt hchain
      cases env with
      | nil =>
        cases hchain
        apply tells_fails
        unfold envSetLoop
        rw [mlIsEnv_nil]
        rfl
      | cons k env =>
        obtain ⟨a, f, hk, rfl, hf, -, hrest⟩ := hchain
        apply Corresponds.given
        intro hI
        obtain ⟨f', hf', hbs⟩ := hI.frames k a hk
        obtain rfl : f' = f := Frame.obj_inj (Option.some.inj (hf'.symm.trans hf))
        have hany := assign_binds (v := v) hbs hn
        have hrun : envSetLoop n v (bound + 1) (.obj a) s = (Microlisp.assign n v f'.bindings).elim
            (envSetLoop n v bound f'.parent)
              (fun bs => (writeObj (.obj a) (.env f'.parent bs f'.capacity) : ML Unit)) s := by
          conv_lhs => unfold envSetLoop
          rw [mlIsEnv_run hf]
          simp only [if_true]
          rw [envFields_run ⟨a, rfl, hf⟩]
          cases Microlisp.assign n v f'.bindings <;> rfl
        have hrun' : Language.assign name x (k :: env) w = (if (w.vars k).any fun b => b.1 = name then
            modify (World.bind name x k) else Language.assign name x env : Sem Unit) w := by
          conv_lhs => unfold Language.assign
          rw [gets_bind_run]
        refine Corresponds.run hrun (.run_left hrun' ?_)
        cases hassign : Microlisp.assign n v f'.bindings with
        | none =>
          rw [hassign] at hany
          rw [hany]
          exact ih env f'.parent (by simpa using hlt) hrest
        | some bs =>
          rw [hassign] at hany
          rw [hany]
          apply Corresponds.of_fully (a := ()) rfl (F := fun _ _ => False) _ fun _ _ h => h.elim
          intro hI
          apply wp_mono (writeObj_wp (fun _ => ⟨a, rfl⟩) fun _ _ => trivial) _ fun _ _ h => h
          rintro _ t ⟨_, ⟨⟩, rfl⟩
          have hbs' : rebind n v f'.bindings = bs := by
            rw [rebind, hassign]
            rfl
          obtain ⟨hon, hdepicts⟩ := hI.bind (t := { s with heap := s.heap.set a (.env f'.parent bs f'.capacity) })
            hk hf hn hv (by rw [hbs'])
          exact ⟨fs, hon, hdepicts, trivial⟩
  have hrun : mlEnvSet e n v s = envSetLoop n v (s.heap.next + 1) e s := by
    unfold mlEnvSet walkBound
    rw [if_pos (mlIsSym_stands hn), gets_bind_run]
  exact Corresponds.run hrun (hloop _ env e (Nat.lt_succ_of_le hchain.length_le) hchain)

end Walks

end Microlisp
