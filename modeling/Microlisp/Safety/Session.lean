import Microlisp.Reading.Safe
import Microlisp.Session
import Microlisp.Symbols
import Microlisp.Transparent
/-!
# No call reads what is gone

Between two calls the state is at rest: nothing in it dangles, no evaluation is under way, and
the names of the special forms come first in the symbol table. A call of `microlisp_eval`
leaves the state at rest, however it ends, and it reads no object that a collection took,
unless a sweep has taken the frame of a call whose leading body forms are being evaluated.
-/
namespace Microlisp

open Prog

/-- Between two calls. -/
structure State.Rests (c : Config) (s : State) : Prop where
  wf : s.WellFormed c
  pending : s.pending = []
  names : s.Numbers (specialForms.map ascii)

section Rests
variable {c : Config} {s t : State} {v form : Val} {old : List Bytes} {α β : Type} {m : ML α} {Q : α → State → Prop}

/-- `quote` is the first name of the table. -/
theorem State.Numbers.quote (h : s.Numbers (specialForms.map ascii)) {K : Nat → Prop} :
    s.Shows K (.sym (ascii "quote")) (.sym 0) := by
  obtain ⟨-, more, hmore⟩ := h
  refine ⟨0, rfl, ?_⟩
  rw [← hmore, specialForms, List.map_cons, List.cons_append, List.findIdx?_cons]
  rfl

theorem State.Rests.ready (hs : s.Rests c) (hc : c.Standard) : s.Ready c where
  wf := hs.wf
  pending := hs.pending
  table := hs.names.1.ceiling
  quote := by
    rw [show c.symQuote = .sym 0 by rw [hc]; rfl]
    exact hs.names.quote

theorem State.Rests.restore (hs : s.Rests c) (n : Nat) : (mlGcRestore n s).Rests c :=
  ⟨hs.wf.restore n, hs.pending, hs.names⟩

theorem State.Rests.clearError (hs : s.Rests c) : (mlClearError s).Rests c :=
  ⟨hs.wf.of_eq rfl (fun _ h => h) fun _ h => h, hs.pending, hs.names⟩

/-- Where the table stays sound and grows in every run that ends. -/
theorem numbers_wp (h : Sim halted halted (NumbersAlike old) m m) (hs : s.Numbers old) :
    wp (Mode.noting fun _ => True) m s (fun _ u => u.Numbers old) fun _ u => u.Numbers old := by
  intro _
  refine ⟨fun _ _ => trivial, ?_⟩
  have hm := h s s ⟨rfl, hs⟩
  unfold SimAt Run.Sim at hm
  cases hr : (m s).res with
  | ok a =>
    rw [hr] at hm
    exact hm.2.2
  | error x =>
    rw [hr] at hm
    cases x with
    | err e => exact ((hm.resolve_left fun hx => hx e rfl).resolve_left fun hx => hx e rfl).2.2
    | stuck => exact id
    | timeout => exact id

/-- A step that leaves the state well-formed leaves it at rest: the rest is bookkeeping. -/
theorem State.Rests.step {M : Mode Event} (hs : s.Rests c) (hkeeps : Keeps c anyStatus s [] m)
    (hnames : Sim halted halted (NumbersAlike (specialForms.map ascii)) m m)
    (hsafe : wp M m s (fun a u => u.WellFormed c ∧ Q a u) fun _ u => u.WellFormed c) :
    wp M m s (fun a u => u.Rests c ∧ Q a u) fun _ u => u.Rests c := by
  apply wp_mono (wp_and (numbers_wp hnames hs.names) (wp_and (hkeeps s .refl) hsafe))
  · rintro a u ⟨hu, hat, hwf, hq⟩
    exact ⟨⟨hwf, hat.pending.trans hs.pending, hu⟩, hq⟩
  · rintro e u ⟨hu, ⟨-, hin⟩, hwf⟩
    exact ⟨hwf, hin.pending.trans hs.pending, hu⟩

theorem State.Rests.protect {M : Mode Event} (hs : s.Rests c) (hv : s.heap.ValOk v) :
    wp M (mlGcProtect c v) s (fun _ u => u.Rests c ∧ u.heap = s.heap) fun _ u => u.Rests c := by
  have hshape : wp (Mode.noting fun _ => True) (mlGcProtect c v) s _ _ := mlGcProtect_wp
  apply wp_mono (wp_and (numbers_wp (lockstep_alike.protect v) hs.names)
    (wp_and hshape (mlGcProtect_safe hs.wf (.inl hv))))
  · rintro _ u ⟨hu, -, hgood, hheap⟩
    exact ⟨⟨hgood.wf, hgood.reached.pending.trans hs.pending, hu⟩, hheap⟩
  · rintro e u ⟨hu, ⟨-, -, heq⟩, hwf⟩
    refine ⟨hwf, ?_, hu⟩
    rw [heq]
    exact hs.pending

/-- A value is on the protect stack while `m` runs. -/
theorem State.Rests.protected {M : Mode Event} {Q : β → State → Prop} {m : ML β} {f : β → ML α} {P : α → State → Prop}
    (hs : s.Rests c) (hv : s.heap.ValOk v)
    (hm : ∀ t, t.Rests c → t.heap = s.heap → wp M m t (fun b u => u.Rests c ∧ Q b u) fun _ u => u.Rests c)
    (hf : ∀ b u, u.Rests c → (∃ u', Q b u' ∧ u.heap = u'.heap) → wp M (f b) u P fun _ u => u.Rests c) :
    wp M (mlGcSavepoint >>= fun sp => mlGcProtect c v >>= fun _ => m.andThen (mlGcRestore sp) >>= f) s P fun _ u =>
      u.Rests c := by
  apply wp_bind
  apply wp_gets
  apply wp_seq (hs.protect hv)
  rintro _ t ⟨ht, hheap⟩
  apply wp_bind
  apply wp_andThen
  apply wp_mono (hm t ht hheap)
  · rintro b u ⟨hu, hq⟩
    exact hf b _ (hu.restore _) ⟨u, hq, rfl⟩
  · exact fun _ u hu => hu.restore _

end Rests

/-! ## Calls -/

section Calls
variable {c : Config} {s t : State} {v form : Val} {r : Reader}

theorem evalMode_unlessLost : EvalMode c Mode.unlessLost :=
  ⟨⟨fun _ => trivial, trivial, fun _ => trivial⟩, ⟨fun _ _ => trivial, fun _ _ _ => trivial⟩,
    fun _ => trivial, .inl rfl, id⟩

/-- A read leaves the state at rest. At the end of the input it does nothing. -/
theorem mlRead_rests (hc : c.Standard) (hs : s.Rests c) :
    wp Mode.unlessLost (mlRead c r) s (fun x u => u.Rests c ∧ u.heap.ValOk x.1 ∧ (x.1 = mvEof → u = s)) fun _ u =>
      u.Rests c := by
  have hread : wp Mode.unlessLost (mlRead c r) s (fun x u => u.WellFormed c ∧ u.heap.ValOk x.1 ∧ (x.1 = mvEof → u = s))
      fun _ u => u.WellFormed c := by
    cases hpeek : (skipWsAndComments r).peek with
    | none =>
      have hend : mlRead c r = pure (mvEof, skipWsAndComments r) := by
        simp only [mlRead, readForm, hpeek]
      rw [hend]
      exact wp_pure ⟨hs.wf, trivial, fun _ => rfl⟩
    | some b =>
      have hmends : wp Mode.unlessLost (mlRead c r) s _ _ := wp_weaken (mlRead_mends r (hs.ready hc))
        (fun _ h => h.elim)
        (fun _ _ => trivial) (fun _ => trivial) fun h => h
      apply wp_mono hmends _ fun _ _ h => h
      rintro ⟨w, r'⟩ u ⟨hu, y, hp, hy⟩
      cases y with
      | none =>
        have := parseForm_none hp
        rw [this.1, hpeek] at this
        cases this.2
      | some d =>
        have hd : s.New u d w := hy
        exact ⟨hu.good.wf, hd.valOk, fun heof => absurd heof hd.ne_eof⟩
  exact hs.step (mlRead_keeps fun _ _ => trivial) (mlRead_lockstep lockstep_names) hread

theorem mlEval_rests (n : Nat) (hs : s.Rests c) (hform : s.heap.ValOk form) :
    wp Mode.unlessLost (mlEval c n form c.toplevelEnv) s (fun v u => u.Rests c ∧ u.heap.ValOk v) fun _ u =>
      u.Rests c := by
  apply hs.step (mlEval_keeps (fun _ => trivial) n _ _ _ _) (mlEval_lockstep lockstep_alike n _ _)
  apply wp_mono (mlEval_safe evalMode_unlessLost n s form c.toplevelEnv hs.wf hform hs.wf.toplevel)
  · exact fun v u hu => ⟨hu.1.wf, hu.2⟩
  · exact fun _ _ h => h

theorem readEvalLoop_rests (hc : c.Standard) (n turns : Nat) (hs : s.Rests c) (hv : s.heap.ValOk v) {saw : Bool} :
    wp Mode.unlessLost (readEvalLoop c n turns r v saw) s (fun x u => u.Rests c ∧ u.heap.ValOk x.1) fun _ u =>
      u.Rests c := by
  induction turns generalizing s r v saw with
  | zero => exact wp_timeout id
  | succ turns ih =>
    unfold readEvalLoop
    apply wp_seq (mlRead_rests hc hs)
    rintro ⟨form, r'⟩ t ⟨ht, hform, heof⟩
    apply wp_ite
    · -- the last result is still what it was: nothing has been read since
      intro hend
      rw [heof hend] at ht ⊢
      exact wp_pure ⟨ht, hv⟩
    · intro _
      apply ht.protected (Q := fun v u => u.heap.ValOk v) hform
      · intro u hu hheap
        exact mlEval_rests n hu (hheap ▸ hform)
      · rintro w u hu ⟨u', hw, hheap⟩
        exact ih hu (hheap ▸ hw)

theorem printBufSink_still {h : Heap} (pb : PrintBuf) (bytes : Bytes) :
    Triple Mode.unlessLost (State.Still c h) (printBufSink c pb bytes) (fun _ u => u.Still c h) fun _ u =>
      u.WellFormed c := by
  have halloc : ∀ size, Triple Mode.unlessLost (State.Still c h) (rawAllocOrFail c size) (fun _ u => u.Still c h)
      fun _ u => u.WellFormed c := by
    intro size s hs
    apply wp_mono (rawAllocOrFail_safe hs.wf)
    · exact fun _ u hu => ⟨hu.1.wf, hu.2.trans hs.heap⟩
    · exact fun _ _ h => h
  apply Triple.ite (fun _ => .fail fun _ h => h.wf)
  intro _
  apply Triple.ite
  · intro _
    split
    · exact .fail fun _ h => h.wf
    · exact .seq (halloc _) fun _ => .pure fun _ h => h
  · exact fun _ => .pure fun _ h => h

theorem mlPrintToAlloc_rests {writeStyle : Bool} (hs : s.Rests c) (hv : s.heap.ValOk v) :
    wp Mode.unlessLost (mlPrintToAlloc c v writeStyle) s (fun _ u => u.Rests c ∧ True) fun _ u => u.Rests c := by
  have hnames : Sim halted halted (NumbersAlike (specialForms.map ascii)) (mlPrintToAlloc c v writeStyle)
      (mlPrintToAlloc c v writeStyle) := by
    apply (mlPrint_lockstep lockstep_alike.toLockstep (printBufSink_lockstep lockstep_alike)).bind
    intro pb
    exact .ite (fun _ => (lockstep_alike.rawAlloc _).bind fun _ => .pure _) fun _ => (Sim.pure _).bind fun _ => .pure _
  have hprint : Triple Mode.unlessLost (State.Still c s.heap) (mlPrintToAlloc c v writeStyle)
      (fun _ u => u.WellFormed c ∧ True)
      fun _ u => u.WellFormed c := by
    apply Triple.seq (mlPrint_still evalMode_unlessLost (fun _ _ => printBufSink_still _ _) hv)
    intro pb
    apply Triple.ite
    · intro _
      apply Triple.seq (fun t ht => ?_) fun _ => .pure fun _ h => ⟨State.Still.wf h, trivial⟩
      apply wp_mono (rawAllocOrFail_safe ht.wf)
      · exact fun _ u hu => ⟨hu.1.wf, hu.2.trans ht.heap⟩
      · exact fun _ _ h => h
    · exact fun _ => .seq (.pure fun _ h => h) fun _ => .pure fun _ h => ⟨State.Still.wf h, trivial⟩
  exact hs.step (mlPrintToAlloc_keeps fun _ _ => trivial) hnames (hprint s ⟨hs.wf, rfl⟩)

theorem printResult_rests (hs : s.Rests c) (hv : s.heap.ValOk v) {saw wantBytes : Bool} :
    wp Mode.unlessLost (printResult c v saw wantBytes) s (fun _ u => u.Rests c) fun _ u => u.Rests c := by
  apply wp_ite
  · exact fun _ => wp_pure hs
  intro _
  apply hs.protected (Q := fun _ _ => True) hv
  · exact fun t ht hheap => mlPrintToAlloc_rests ht (hheap ▸ hv)
  · exact fun _ _ hu _ => wp_pure hu

/-- However a call ends, it leaves the state at rest. -/
theorem microlispEval_rests (hc : c.Standard) (n : Nat) (hs : s.Rests c) {source : Option Bytes} {sourceLen : Nat}
    {wantBytes : Bool} :
    wp Mode.unlessLost (microlispEval c n source sourceLen wantBytes) s (fun _ u => u.Rests c) fun _ u =>
      u.Rests c := by
  apply wp_ite
  · exact fun _ => wp_bind (wp_modify (wp_fail ⟨hs.wf.of_eq rfl (fun _ h => h) fun _ h => h, hs.pending, hs.names⟩))
  · intro _
    apply wp_bind
    apply wp_modify
    have hundef : (mlClearError s).heap.ValOk mvUndef := trivial
    apply wp_seq (readEvalLoop_rests hc n _ hs.clearError hundef)
    exact fun x u hu => printResult_rests hu.1 hu.2

end Calls

/-! ## A new state -/

section Install
variable {c : Config} {s : State} {o : Obj}

/-- A new object, allocated while no evaluation is under way. -/
theorem gcAlloc_calm {size : Nat} (hs : s.Ready c) (hok : s.heap.ObjOk o) (hrefs : ∀ v ∈ o.refs, v.In (s.Kept c)) :
    wp (readMode False) (gcAlloc c size o) s (fun v u => s.Good c [] u ∧ u.heap.Has v o) fun _ u => u.WellFormed c := by
  apply wp_seq (maybeCollect_reads hs)
  rintro _ t ⟨ht, -⟩
  apply wp_seq (rawAllocOrFail_safe ht.good.wf)
  rintro _ u ⟨hu, -⟩
  have hu' := ht.good.seq hu
  have hok' := hu'.agree.objOk hrefs hok
  apply wp_mono (linkObject_wp trivial) _ fun _ _ h => h
  rintro _ w ⟨rfl, rfl⟩
  refine ⟨⟨{ hu'.reached with heap := hu'.reached.heap.alloc o }, ?_⟩, _, rfl, by rw [Heap.get_alloc, if_pos rfl]⟩
  exact (hu'.wf.alloc hok').of_eq rfl (fun _ h => h) fun _ h => h

theorem mlSymIntern_rests {name : Bytes} (hs : s.Rests c) :
    wp (readMode False) (mlSymIntern c name) s (fun _ u => u.Rests c ∧ u.heap = s.heap) fun _ u => u.Rests c := by
  apply hs.step (mlSymIntern_keeps fun _ _ => trivial) (mlSymIntern_alike name)
  apply wp_mono mlSymIntern_adds
  · rintro v u ⟨-, -, hu⟩
    rw [hu]
    exact ⟨hs.wf.of_eq rfl (fun _ h => h) fun _ h => h, rfl⟩
  · rintro e u ⟨-, hu⟩
    rw [hu]
    exact hs.wf.of_eq rfl (fun _ h => h) fun _ h => h

theorem installLoop_rests (hc : c.Standard) (l : List (String × PrimFn × UInt32 × UInt32))
    (hl : ∀ p ∈ l, p ∈ kPrimitives)
    (hs : s.Rests c) : wp (readMode False) (installLoop c c.toplevelEnv l) s (fun _ u => u.Rests c)
    fun _ u => u.Rests c := by
  induction l generalizing s with
  | nil => exact wp_pure hs
  | cons p l ih =>
    obtain ⟨name, fn, arityMin, arityMax⟩ := p
    have hok : s.heap.ObjOk (.prim name fn arityMin arityMax) := hl _ (List.mem_cons_self ..)
    have halloc : wp (readMode False) (mlGcAllocPrimitive c name fn arityMin arityMax) s
        (fun v u => u.Rests c ∧ u.heap.ValOk v) fun _ u => u.Rests c := by
      apply hs.step (gcAlloc_keeps fun _ _ => trivial) (gcAlloc_alike _ _)
      apply wp_mono (gcAlloc_calm (hs.ready hc) hok nofun)
      · rintro v u ⟨hu, a, rfl, ha⟩
        exact ⟨hu.wf, _, ha, rfl⟩
      · exact fun _ _ h => h
    apply wp_seq halloc
    rintro prim t ⟨ht, hprim⟩
    apply wp_bind
    apply wp_gets
    apply wp_seq (ht.protect hprim)
    rintro _ u ⟨hu, hheap⟩
    apply wp_seq (wp_onErr (wp_mono (mlSymIntern_rests hu) (fun _ _ h => h) fun _ _ h => h.restore _))
    rintro sym w ⟨hw, hheap'⟩
    have hval : w.heap.ValOk prim := by
      rw [hheap', hheap]
      exact hprim
    have hdefine : wp (readMode False) (mlEnvDefine c c.toplevelEnv sym prim) w (fun _ u => u.Rests c ∧ True)
        fun _ u => u.Rests c := by
      apply hw.step (mlEnvDefine_keeps fun _ _ => trivial) (mlEnvDefine_lockstep lockstep_alike.toLockstep)
      apply wp_mono (mlEnvDefine_safe ⟨fun _ => trivial, trivial, fun _ => trivial⟩ hw.wf hw.wf.toplevel hval)
      · exact fun _ u hu => ⟨hu.wf, trivial⟩
      · exact fun _ _ h => h
    apply wp_bind
    apply wp_andThen
    apply wp_mono hdefine
    · exact fun _ u hu => ih (fun q hq => hl q (List.mem_cons_of_mem _ hq)) (hu.1.restore _)
    · exact fun _ u hu => hu.restore _

theorem mlPrimitivesInstall_rests (hc : c.Standard) (hs : s.Rests c) :
    wp (readMode False) (mlPrimitivesInstall c c.toplevelEnv) s (fun _ u => u.Rests c) fun _ u => u.Rests c :=
  installLoop_rests hc kPrimitives (fun _ h => h) hs

end Install
end Microlisp
