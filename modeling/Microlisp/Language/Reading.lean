import Microlisp.Language.Text
import Microlisp.Lockstep.Upheld
/-!
# Reading in the world

The reader adds objects and names. It leaves every frame as it is, so the state goes on standing for
the same world, and what a form stands for does not change when others are read after it.
-/
namespace Microlisp

open Prog Microlisp.Language

/-! ## More names -/

section Names
variable {h : Heap} {names names' : List Bytes} {fs : List Nat} {x : Value} {v : Val} {d : Datum}

theorem Heap.Shows.named (hv : h.Shows names (fun _ => True) d v) (hn : names <+: names') :
    h.Shows names' (fun _ => True) d v :=
  hv.transfer (fun _ _ _ ho _ => ho) hn fun _ _ _ => trivial

theorem Heap.Stands.named (hv : h.Stands names fs x v) (hn : names <+: names') : h.Stands names' fs x v := by
  induction x generalizing v with
  | sym name =>
    have hd : h.Shows names (fun _ => True) (.sym name) v := hv
    exact hd.named hn
  | pair a d iha ihd =>
    obtain ⟨p, q, ho, hp, hq⟩ := hv
    exact ⟨p, q, ho, iha hp, ihd hq⟩
  | closure params rest body env =>
    obtain ⟨cl, ho, henv, hparams, hbody, harity⟩ := hv
    exact ⟨cl, ho, henv, hparams.named hn, hbody.named hn, harity⟩
  | _ => exact hv

theorem Heap.Binds.named {b : Bytes × Value} {b' : Val × Val} (hb : h.Binds names fs b b') (hn : names <+: names') :
    h.Binds names' fs b b' := ⟨hb.1.named hn, hb.2.named hn⟩

end Names

/-- Frames, objects and names have been added, and frames changed. -/
structure Grown (fs : List Nat) (s : State) (fs' : List Nat) (t : State) : Prop where
  frames : fs <+: fs'
  heap : s.heap.Agree (fun _ => True) t.heap
  names : s.symtab.entries <+: t.symtab.entries

section Growth
variable {fs fs' fs'' : List Nat} {s t u : State} {x : Value} {v : Val} {env : List Nat}

theorem Onward.grown (h : Onward fs s fs' t) : Grown fs s fs' t := ⟨h.frames, h.heap, h.symtab ▸ List.prefix_refl _⟩

theorem Grown.trans (h : Grown fs s fs' t) (h' : Grown fs' t fs'' u) : Grown fs s fs'' u :=
  ⟨h.frames.trans h'.frames, h.heap.trans h'.heap, h.names.trans h'.names⟩

theorem State.Stands.grown (h : s.Stands fs x v) (hx : Grown fs s fs' t) : t.Stands fs' x v :=
  (Heap.Stands.later h hx.heap hx.frames).named hx.names

theorem Heap.Chain.grown (h : s.heap.Chain fs env v) (hx : Grown fs s fs' t) : t.heap.Chain fs' env v :=
  h.later hx.heap hx.frames

end Growth

/-! ## Frames are left alone -/

/-- What a world consists of has not changed. -/
structure State.Unmoved (s t : State) : Prop where
  frames : ∀ (a : Nat) (f : Frame), s.heap.get a = some f.obj → t.heap.get a = some f.obj
  output : t.output = s.output
  printDepth : t.printDepth = s.printDepth
  equalDepth : t.equalDepth = s.equalDepth

section Unmoved
variable {c : Config} {s t u : State} {v d : Val} {fs : List Nat} {w : World}

theorem State.Unmoved.refl : s.Unmoved s := ⟨fun _ _ h => h, rfl, rfl, rfl⟩

/-- A step that touches no object. -/
theorem State.Unmoved.of_heap (h : s.Unmoved t) (hheap : u.heap = t.heap) (hout : u.output = t.output)
    (hprint : u.printDepth = t.printDepth)
    (hequal : u.equalDepth = t.equalDepth) : s.Unmoved u :=
  ⟨fun a f ho => hheap ▸ h.frames a f ho, hout.trans h.output, hprint.trans h.printDepth,
    hequal.trans h.equalDepth⟩

/-- The state stands for the same world. -/
theorem State.Depicts.unmoved (hI : s.Depicts fs w) (h : s.Unmoved t) (hagree : s.heap.Agree (fun _ => True) t.heap)
    (hnames : s.symtab.entries <+: t.symtab.entries) : t.Depicts fs w where
  frames := by
    intro k a hk
    obtain ⟨f, hf, hbs⟩ := hI.frames k a hk
    exact ⟨f, h.frames a f hf, hbs.imp fun _ _ hb => (hb.later hagree (List.prefix_refl _)).named hnames⟩
  count := hI.count
  distinct := hI.distinct
  names := hI.names.trans hnames
  output := h.output.trans hI.output
  printDepth := h.printDepth.trans hI.printDepth
  equalDepth := h.equalDepth.trans hI.equalDepth

theorem rawAllocOrFail_unmoved {size : Nat} (h : s.Unmoved t) :
    wp Mode.partly (rawAllocOrFail c size) t (fun _ => s.Unmoved) fun _ => s.Unmoved := by
  apply wp_mono rawAllocOrFail_wp
  · intro _ u hu
    rw [hu]
    exact h.of_heap rfl rfl rfl rfl
  · rintro _ u ⟨-, -, hu⟩
    rw [hu]
    exact h.of_heap rfl rfl rfl rfl

theorem gcAlloc_unmoved (hd : ∀ s, c.collectDue s = false) {size : Nat} {o : Obj} (h : s.Unmoved t) :
    wp Mode.partly (gcAlloc c size o) t (fun _ => s.Unmoved) fun _ => s.Unmoved := by
  apply wp_bind
  apply wp_bind
  apply wp_gets
  rw [if_neg (by simp [hd])]
  apply wp_pure
  apply wp_seq (rawAllocOrFail_unmoved h)
  intro _ u hu
  apply wp_mono (linkObject_wp trivial) _ fun _ _ h => h
  rintro v w ⟨rfl, rfl⟩
  refine ⟨fun a f ho => ?_, hu.output, hu.printDepth, hu.equalDepth⟩
  have hold := hu.frames a f ho
  rw [Heap.get_alloc, if_neg (Nat.ne_of_lt (Heap.lt_next_of_get hold).2), hold]

/-- Only a pair is overwritten. -/
theorem setCdr_unmoved (h : s.Unmoved t) : wp Mode.partly (setCdr v d) t (fun _ => s.Unmoved) fun _ => s.Unmoved := by
  apply wp_seq (asObj_wp (E := fun _ => s.Unmoved) False.elim)
  rintro o _ ⟨rfl, a, rfl, ho⟩
  cases o with
  | pair x y =>
    apply wp_mono (writeObj_wp False.elim fun _ _ => trivial) _ fun _ _ h => h
    rintro _ u ⟨_, ⟨⟩, rfl⟩
    refine ⟨fun b f hb => ?_, h.output, h.printDepth, h.equalDepth⟩
    have hold := h.frames b f hb
    have hne : b ≠ a := by
      rintro rfl
      rw [hold] at ho
      cases ho
    rw [Heap.get_set, if_neg hne, hold]
  | _ => exact wp_stuck id

/-- The steps of the reader. -/
theorem steps_unmoved (hd : ∀ s, c.collectDue s = false) :
    LockstepSteps halted halted c c (· = ·) (Holding s.Unmoved) where
  maxReadDepth := .inl rfl
  symQuote := rfl
  intern := by
    intro name
    apply holding_of_wp
    intro t h
    apply wp_mono mlSymIntern_adds
    · rintro _ u ⟨-, -, hu⟩
      rw [hu]
      exact h.of_heap rfl rfl rfl rfl
    · rintro _ u ⟨-, hu⟩
      rw [hu]
      exact h.of_heap rfl rfl rfl rfl
  cdr := by
    intro v
    apply holding_of_wp
    intro t h
    apply wp_mono (cdr_wp False.elim) _ fun _ _ h => h
    rintro _ _ ⟨rfl, -⟩
    exact h
  setCdr := fun _ _ => holding_of_wp fun _ => setCdr_unmoved
  gcAlloc := fun _ _ => holding_of_wp fun _ => gcAlloc_unmoved hd
  rawAlloc := fun _ => holding_of_wp fun _ => rawAllocOrFail_unmoved
  protect := by
    intro v
    apply holding_of_wp
    intro t h
    apply wp_mono mlGcProtect_wp
    · intro _ u hu
      rw [hu]
      exact h.of_heap rfl rfl rfl rfl
    · rintro _ u ⟨-, -, hu⟩
      rw [hu]
      exact h.of_heap rfl rfl rfl rfl
  height := by
    rintro t _ ⟨rfl, -⟩
    rfl
  restore := by
    rintro n _ t _ rfl ⟨rfl, h⟩
    exact ⟨rfl, h.of_heap rfl rfl rfl rfl⟩
  unprotect := by
    rintro n t _ ⟨rfl, h⟩
    exact ⟨rfl, h.of_heap rfl rfl rfl rfl⟩
  setError := by
    rintro line column message t _ ⟨rfl, h⟩
    exact ⟨rfl, h.of_heap rfl rfl rfl rfl⟩

end Unmoved

/-! ## Reads -/

section Reads
variable {c : Config} {s : State} {r : Reader} {fs : List Nat} {w : World} (hd : ∀ s, c.collectDue s = false)
include hd

/-- However a read ends, the world is the same. -/
theorem mlRead_grown (hI : s.Depicts fs w) {o : Except Status (Val × Reader)} (ho : (mlRead c r s).Ends o) :
    Grown fs s fs (mlRead c r s).state ∧ (mlRead c r s).state.Depicts fs w := by
  have hunmoved : s.Unmoved (mlRead c r s).state := holds_of_ends (mlRead_steps (steps_unmoved hd)) .refl ho
  have hinside : s.Inside c [] (mlRead c r s).state := by
    have hkeeps : Keeps c anyStatus s [] (mlRead c r) := mlRead_keeps fun _ _ => trivial
    have hk := (hkeeps s .refl fun _ _ => id).2
    unfold Run.Ends at ho
    rw [ho] at hk
    cases o with
    | ok x => exact hk.toInside
    | error e => exact hk.2
  have hagree := hinside.heap.agree hd
  exact ⟨⟨List.prefix_refl _, hagree, hinside.entries⟩, hI.unmoved hunmoved hagree hinside.entries⟩

end Reads

section Calm
variable {c : Config} {s : State} {r : Reader} {form : Val}

theorem mlRead_calm (hc : c.Standard) (hs : s.Rests c) :
    wp (readMode False) (mlRead c r) s (fun _ u => u.Rests c ∧ True) fun _ u => u.Rests c := by
  apply hs.step (mlRead_keeps fun _ _ => trivial) (mlRead_lockstep lockstep_names)
  apply wp_mono (mlRead_mends r (hs.ready hc))
  · exact fun _ _ h => ⟨h.1.good.wf, trivial⟩
  · exact fun _ _ h => h

/-- Without collections no evaluation loses a frame. -/
theorem evalMode_calm (hd : ∀ s, c.collectDue s = false) : EvalMode c (readMode False) :=
  ⟨⟨fun _ => trivial, trivial, fun _ => trivial⟩, counts_read, fun _ => trivial, .inr hd, id⟩

theorem mlEval_calm (hd : ∀ s, c.collectDue s = false) (n : Nat) (hs : s.Rests c) (hform : s.heap.ValOk form) :
    wp (readMode False) (mlEval c n form c.toplevelEnv) s (fun _ u => u.Rests c ∧ True) fun _ u => u.Rests c := by
  apply hs.step (mlEval_keeps (fun _ => trivial) n _ _ _ _) (mlEval_lockstep lockstep_alike n _ _)
  apply wp_mono (mlEval_safe (evalMode_calm hd) n s form c.toplevelEnv hs.wf hform hs.wf.toplevel)
  · exact fun _ _ h => ⟨h.1.wf, trivial⟩
  · exact fun _ _ h => h

end Calm

end Microlisp
