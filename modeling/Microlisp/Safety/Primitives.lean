import Microlisp.Safety.Memory
/-!
# Frames, equality, printing and primitives never get stuck
-/
namespace Microlisp

open Prog

section Frames
variable {c : Config} {M : Mode Event} {s : State} {name value env v w : Val} {α : Type} {m : ML α}

/-- What is known of every run of `m` from any state, and what is known from a well-formed
one. -/
theorem good_of_keeps {S : Status → Prop} {Q : α → State → Prop} (hk : Keeps c S s [] m)
    (h : wp M m s (fun a u => u.WellFormed c ∧ Q a u) (fun _ u => u.WellFormed c)) :
    wp M m s (fun a u => s.Good c [] u ∧ Q a u) (fun _ u => u.WellFormed c) :=
  wp_mono (wp_and (hk s .refl) h) (fun _ _ h => ⟨⟨h.1, h.2.1⟩, h.2.2⟩) (fun _ _ h => h.2)

/-! ## Frames -/

theorem Heap.agree_set {h : Heap} {a : Nat} {f : Frame} {bs : List (Val × Val)} {k : Nat} (ha : h.get a = some f.obj)
    (hbs : f.bindings.map Prod.fst <+: bs.map Prod.fst) :
    h.Agree (fun _ => True) (h.set a (.env f.parent bs k)) := by
  refine .of_all fun b o ho => ?_
  rw [Heap.get_set, ho]
  split
  · rename_i hba
    rw [hba, ha] at ho
    cases ho
    exact ⟨_, rfl, bs, k, rfl, hbs⟩
  · exact ⟨o, rfl, .refl o⟩

/-- Writing a frame back with well-formed bindings. -/
theorem writeObj_frame_safe {f : Frame} {bs : List (Val × Val)} {k : Nat} {E : Status → State → Prop} (hM : Collects M)
    (hs : s.WellFormed c) (henv : s.heap.Has env f.obj) (hnames : f.bindings.map Prod.fst <+: bs.map Prod.fst)
    (hbs : ∀ b ∈ bs, mlIsSym b.1 = true ∧ s.heap.ValOk b.2) :
    wp M (writeObj env (.env f.parent bs k)) s (fun _ u => u.WellFormed c) E := by
  obtain ⟨a, rfl, ha⟩ := henv
  refine wp_mono (writeObj_wp (fun _ => ⟨a, rfl⟩) fun _ _ => hM.heap _) ?_ (fun _ _ h => h)
  rintro _ u ⟨_, ⟨⟩, rfl⟩
  have hx := Heap.agree_set (k := k) ha hnames
  refine ⟨?_, ?_, hx.frameOk Val.in_all hs.toplevel, ?_, ?_⟩
  · intro d hd
    obtain ⟨d', hd', rfl⟩ := List.mem_map.1 hd
    have := hs.clear d' hd'
    split <;> exact this
  · intro b o ho
    rw [Heap.get_set] at ho
    split at ho
    · obtain ⟨o', ho', rfl⟩ := Option.map_eq_some_iff.1 ho
      obtain ⟨hparent, -⟩ : s.heap.ObjOk f.obj := hs.objs a _ ha
      exact ⟨hparent.imp id (hx.frameOk Val.in_all), fun b hb => ⟨(hbs b hb).1, hx.valOk Val.in_all (hbs b hb).2⟩⟩
    · exact hx.objOk (fun _ _ => Val.in_all) (hs.objs b o ho)
  · exact fun v hv => (hs.protect v hv).imp (hx.valOk Val.in_all) (hx.frameOk Val.in_all)
  · exact fun v hv => hx.frameOk Val.in_all (hs.pending v hv)

/-- After an assignment each binding is an old one or the new one. -/
theorem assign_mem {bs bs' : List (Val × Val)} {b : Val × Val} (h : assign name value bs = some bs') (hb : b ∈ bs') :
    b ∈ bs ∨ (b = (name, value) ∧ name ∈ bs.map Prod.fst) := by
  induction bs generalizing bs' with
  | nil => cases h
  | cons x bs ih =>
    simp only [assign] at h
    split at h
    · rename_i hx
      cases h
      rcases List.mem_cons.1 hb with rfl | hb
      · exact .inr ⟨rfl, by simp [← hx]⟩
      · exact .inl (by simp [hb])
    · obtain ⟨bs₁, hbs, rfl⟩ := Option.map_eq_some_iff.1 h
      rcases List.mem_cons.1 hb with rfl | hb
      · exact .inl (by simp)
      · exact (ih hbs hb).imp (fun h => by simp [h]) (fun h => ⟨h.1, by simp [h.2]⟩)

/-- The bindings after an assignment are well-formed. -/
theorem State.WellFormed.assigned {f : Frame} {bs : List (Val × Val)} (hs : s.WellFormed c) (hf : s.heap.Has env f.obj)
    (hv : s.heap.ValOk value) (h : assign name value f.bindings = some bs) :
    ∀ b ∈ bs, mlIsSym b.1 = true ∧ s.heap.ValOk b.2 := by
  obtain ⟨a, -, ha⟩ := hf
  have hok : s.heap.ObjOk f.obj := hs.objs a _ ha
  intro b hb
  rcases assign_mem h hb with hb | ⟨rfl, hn⟩
  · exact hok.2 b hb
  · obtain ⟨x, hx, rfl⟩ := List.mem_map.1 hn
    exact ⟨(hok.2 x hx).1, hv⟩

theorem mlEnvDefine_safe (hM : Collects M) (hs : s.WellFormed c) (henv : s.heap.FrameOk env) (hv : s.heap.ValOk value) :
    wp M (mlEnvDefine c env name value) s (fun _ u => s.Good c [] u) (fun _ u => u.WellFormed c) := by
  have hwf : wp M (mlEnvDefine c env name value) s (fun _ u => u.WellFormed c) (fun _ u => u.WellFormed c) := by
    refine wp_seq (mlIsEnv_wp fun _ => henv.holds) ?_
    rintro ok t ⟨rfl, -⟩
    split
    · exact wp_fail hs
    · rename_i hok
      have hname : mlIsSym name = true := by simp_all
      refine wp_seq (envFields_wp fun _ => henv) ?_
      rintro f t ⟨rfl, hf⟩
      split
      · rename_i bs hbs
        exact writeObj_frame_safe hM hs hf (assign_names hbs ▸ List.prefix_refl _) (hs.assigned hf hv hbs)
      · -- the capacity may grow first, which leaves the heap as it is
        have hwrite : ∀ k u, t.Good c [] u ∧ u.heap = t.heap → wp M
            (writeObj env (.env f.parent (f.bindings ++ [(name, value)]) k)) u (fun _ u => u.WellFormed c)
            (fun _ u => u.WellFormed c) := by
          rintro k u ⟨hu, hheap⟩
          refine writeObj_frame_safe hM hu.wf (hheap ▸ hf) (by rw [List.map_append]; exact List.prefix_append _ _) ?_
          intro b hb
          rw [hheap]
          rcases List.mem_append.1 hb with hb | hb
          · obtain ⟨a, -, ha⟩ := hf
            exact (hs.objs a _ ha).2 b hb
          · rw [List.mem_singleton.1 hb]
            exact ⟨hname, hv⟩
        dsimp only
        split
        · refine wp_seq (Q := fun _ u => t.Good c [] u ∧ u.heap = t.heap) ?_ hwrite
          refine wp_seq (rawAllocOrFail_safe hs) fun _ u hu => wp_seq (rawAllocOrFail_safe hu.1.wf) fun _ w hw => ?_
          exact wp_pure ⟨hu.1.seq hw.1, hw.2.trans hu.2⟩
        · exact wp_seq (wp_pure ⟨.refl hs, rfl⟩) hwrite
  exact wp_mono (good_of_keeps (Q := fun _ _ => True) (mlEnvDefine_keeps fun _ _ => trivial)
    (wp_mono hwf (fun _ _ h => ⟨h, trivial⟩) (fun _ _ h => h))) (fun _ _ h => h.1) (fun _ _ h => h)

variable (hM : EvalMode c M)
include hM

omit hM in
/-- The frame that follows one in the chain, if it is one. -/
theorem State.WellFormed.parent (hs : s.WellFormed c) {f : Frame} (hf : s.heap.Has env f.obj) :
    f.parent = mvNil ∨ s.heap.FrameOk f.parent := by
  obtain ⟨a, -, ha⟩ := hf
  exact (hs.objs a _ ha).1

omit hM in
theorem chain_holds (h : env = mvNil ∨ s.heap.FrameOk env) : s.heap.Holds env := by
  rcases h with rfl | h
  · rintro _ ⟨⟩
  · exact h.holds

theorem mlEnvSet_safe (hs : s.WellFormed c) (henv : s.heap.FrameOk env) (hv : s.heap.ValOk value) :
    wp M (mlEnvSet env name value) s (fun _ u => s.Good c [] u) (fun _ u => u.WellFormed c) := by
  have hloop : ∀ n cur, (cur = mvNil ∨ s.heap.FrameOk cur) →
      wp M (envSetLoop name value n cur) s (fun _ u => u.WellFormed c) (fun _ u => u.WellFormed c) := by
    intro n
    induction n with
    | zero => exact fun _ _ => wp_timeout hM.total
    | succ n ih =>
      intro cur hcur
      refine wp_seq (mlIsEnv_wp fun _ => chain_holds hcur) ?_
      rintro ok t ⟨rfl, hok⟩
      split
      · rename_i h
        refine wp_seq (envFields_wp fun _ => hok.1 h) ?_
        rintro f t ⟨rfl, hf⟩
        split
        · rename_i bs hbs
          exact writeObj_frame_safe hM.toCollects hs hf (assign_names hbs ▸ List.prefix_refl _) (hs.assigned hf hv hbs)
        · exact ih f.parent (hs.parent hf)
      · exact wp_fail hs
  refine wp_mono (good_of_keeps (Q := fun _ _ => True) (mlEnvSet_keeps fun _ _ => trivial) ?_) (fun _ _ h => h.1)
    (fun _ _ h => h)
  unfold mlEnvSet
  split
  · exact wp_bind (wp_gets (wp_mono (hloop _ env (.inr henv)) (fun _ _ h => ⟨h, trivial⟩) (fun _ _ h => h)))
  · exact wp_fail hs

theorem mlEnvLookup_safe (hs : s.WellFormed c) (henv : s.heap.FrameOk env) :
    wp M (mlEnvLookup env name) s (fun v u => u = s ∧ s.heap.ValOk v) (fun _ u => u = s) := by
  have hloop : ∀ n cur, (cur = mvNil ∨ s.heap.FrameOk cur) →
      wp M (envLookupLoop name n cur) s (fun v u => u = s ∧ s.heap.ValOk v) (fun _ u => u = s) := by
    intro n
    induction n with
    | zero => exact fun _ _ => wp_timeout hM.total
    | succ n ih =>
      intro cur hcur
      refine wp_seq (mlIsEnv_wp fun _ => chain_holds hcur) ?_
      rintro ok t ⟨rfl, hok⟩
      split
      · rename_i h
        refine wp_seq (envFields_wp fun _ => hok.1 h) ?_
        rintro f t ⟨rfl, hf⟩
        split
        · rename_i b hb
          obtain ⟨a, -, ha⟩ := id hf
          exact wp_pure ⟨rfl, ((hs.objs a _ ha).2 b (List.mem_of_find?_eq_some hb)).2⟩
        · exact ih f.parent (hs.parent hf)
      · exact wp_fail rfl
  unfold mlEnvLookup
  split
  · exact wp_bind (wp_gets (hloop _ env (.inr henv)))
  · exact wp_fail rfl

end Frames

/-! ## Operations that leave the heap as it is -/

/-- A well-formed state with the heap `h`. -/
structure State.Still (c : Config) (h : Heap) (t : State) : Prop where
  wf : t.WellFormed c
  heap : t.heap = h

section Still
variable {c : Config} {M : Mode Event} {h : Heap} {v w a d : Val} {E : Status → State → Prop}

theorem State.Still.of_eq {t u : State} (ht : t.Still c h) (hheap : u.heap = t.heap) (hp : u.gcProtect = t.gcProtect)
    (hpend : u.pending = t.pending) : u.Still c h :=
  ⟨ht.wf.of_eq hheap (fun _ hv => hp ▸ hv) (fun _ hv => hpend ▸ hv), hheap.trans ht.heap⟩

theorem State.Still.pair {t : State} (ht : t.Still c h) (hv : h.Has v (.pair a d)) : h.ValOk a ∧ h.ValOk d := by
  obtain ⟨x, -, hx⟩ := hv
  have := ht.wf.objs x
  rw [ht.heap] at this
  exact this _ hx

theorem mlIsPair_still (hv : h.ValOk v) : Triple M (State.Still c h) (mlIsPair v)
    (fun b t => (b = true ↔ ∃ x : Val × Val, h.Has v (.pair x.1 x.2)) ∧ t.Still c h) E := by
  rintro t ht
  refine wp_mono (mlIsPair_wp fun _ => ht.heap ▸ hv.holds) ?_ (fun _ _ h => h)
  rintro b u ⟨rfl, hb⟩
  rw [ht.heap] at hb
  exact ⟨hb, ht⟩

theorem mlIsString_still (hv : h.ValOk v) : Triple M (State.Still c h) (mlIsString v)
    (fun b t => (b = true ↔ ∃ x, h.Has v (.string x)) ∧ t.Still c h) E := by
  rintro t ht
  refine wp_mono (mlIsString_wp fun _ => ht.heap ▸ hv.holds) ?_ (fun _ _ h => h)
  rintro b u ⟨rfl, hb⟩
  rw [ht.heap] at hb
  exact ⟨hb, ht⟩

theorem stringBytes_still (hv : ∃ x, h.Has v (.string x)) :
    Triple M (State.Still c h) (stringBytes v) (fun _ t => True ∧ t.Still c h) E := by
  rintro t ht
  refine wp_mono (stringBytes_wp fun _ => ht.heap ▸ hv) ?_ (fun _ _ h => h)
  rintro b u ⟨rfl, -⟩
  exact ⟨trivial, ht⟩

theorem car_still (hv : ∃ x : Val × Val, h.Has v (.pair x.1 x.2)) :
    Triple M (State.Still c h) (car v) (fun x t => h.ValOk x ∧ t.Still c h) E := by
  rintro t ht
  obtain ⟨x, hx⟩ := hv
  refine wp_mono (car_wp fun _ => ⟨x.1, x.2, ht.heap ▸ hx⟩) ?_ (fun _ _ h => h)
  rintro a u ⟨rfl, d, ho⟩
  exact ⟨(ht.pair (ht.heap ▸ ho)).1, ht⟩

theorem cdr_still (hv : ∃ x : Val × Val, h.Has v (.pair x.1 x.2)) :
    Triple M (State.Still c h) (cdr v) (fun x t => h.ValOk x ∧ t.Still c h) E := by
  rintro t ht
  obtain ⟨x, hx⟩ := hv
  refine wp_mono (cdr_wp fun _ => ⟨x.1, x.2, ht.heap ▸ hx⟩) ?_ (fun _ _ h => h)
  rintro a u ⟨rfl, d, ho⟩
  exact ⟨(ht.pair (ht.heap ▸ ho)).2, ht⟩

theorem raise_still {α : Type} {line column : Nat} {message : Bytes} {e : Status} {Q : α → State → Prop} :
    Triple M (State.Still c h) (raise line column message e) Q (fun _ u => u.WellFormed c) :=
  fun _ ht => raise_safe ht.wf

theorem mlValueEqv_still (hv : h.ValOk v) (hw : h.ValOk w) :
    Triple M (State.Still c h) (mlValueEqv v w) (fun _ t => True ∧ t.Still c h) E := by
  refine .ite (fun _ => .pure fun _ h => ⟨trivial, h⟩) (fun _ => ?_)
  refine .fact (mlIsString_still hv) fun b hb => .ite (fun hb' => ?_) (fun _ => .pure fun _ h => ⟨trivial, h⟩)
  refine .fact (mlIsString_still hw) fun b' hb'' => .ite (fun h' => ?_) (fun _ => .pure fun _ h => ⟨trivial, h⟩)
  refine .fact (stringBytes_still (hb.1 hb')) fun _ _ => .fact (stringBytes_still (hb''.1 h')) fun _ _ => ?_
  exact .pure fun _ h => ⟨trivial, h⟩

variable (hM : EvalMode c M)
include hM

theorem valueEqual_still (n : Nat) (a b : Val) (ha : h.ValOk a) (hb : h.ValOk b) :
    Triple M (State.Still c h) (valueEqual c n a b) (fun _ t => t.Still c h) (fun _ u => u.WellFormed c) := by
  induction n generalizing a b with
  | zero => exact .timeout fun _ _ => hM.total
  | succ n ih =>
    have hleave : ∀ t, State.WellFormed c t → (leaveEqual t).WellFormed c :=
      fun t ht => ht.of_eq rfl (fun _ h => h) (fun _ h => h)
    refine .seq (.gets fun _ h => h) fun depth => .ite (fun _ => raise_still) (fun _ => ?_)
    refine .fact (mlValueEqv_still ha hb) fun _ _ => .ite (fun _ => .pure fun _ h => h) (fun _ => ?_)
    refine .fact (mlIsPair_still ha) fun x hx => .ite (fun _ => .pure fun _ h => h) (fun hx' => ?_)
    refine .fact (mlIsPair_still hb) fun y hy => .ite (fun _ => .pure fun _ h => h) (fun hy' => ?_)
    replace hx := hx.1 (by simpa using hx')
    replace hy := hy.1 (by simpa using hy')
    refine .fact (car_still hx) fun carA hcarA => .fact (car_still hy) fun carB hcarB => ?_
    refine .seq (.modify fun t ht => ht.of_eq rfl rfl rfl) fun _ => .seq (.onErr ?_) fun carEq => ?_
    · exact (ih carA carB hcarA hcarB).conseq (fun _ h => h) (fun _ _ h => h) (fun _ t h => hleave t h)
    · refine .ite (fun _ => .seq (.modify fun t ht => ht.of_eq rfl rfl rfl) fun _ => .pure fun _ h => h) (fun _ => ?_)
      refine .fact (cdr_still hx) fun cdrA hcdrA => .fact (cdr_still hy) fun cdrB hcdrB => .andThen ?_
      exact (ih cdrA cdrB hcdrA hcdrB).conseq (fun _ h => h) (fun _ _ h => h.of_eq rfl rfl rfl)
        (fun _ t h => hleave t h)

/-! ## Printing -/

section Printing
variable {β : Type} {out : Sink β}
variable (hout : ∀ user bytes, Triple M (State.Still c h) (out user bytes) (fun _ t => t.Still c h)
    (fun _ u => u.WellFormed c))
include hout

omit hM in
theorem emitTo_still {user : β} {bytes : Bytes} :
    Triple M (State.Still c h) (emitTo out user bytes) (fun _ t => t.Still c h) (fun _ u => u.WellFormed c) :=
  .ite (fun _ => .pure fun _ h => h) (fun _ => hout _ _)

omit hM in
theorem emitStringQuoted_still {user : β} {bytes : Bytes} :
    Triple M (State.Still c h) (emitStringQuoted out user bytes) (fun _ t => t.Still c h)
      (fun _ u => u.WellFormed c) := by
  have hloop : ∀ bs run user, Triple M (State.Still c h) (emitQuotedLoop out bs run user) (fun _ t => t.Still c h)
      (fun _ u => u.WellFormed c) := by
    intro bs
    induction bs with
    | nil => exact fun _ _ => emitTo_still hout
    | cons b bs ih =>
      intro run user
      refine .ite (fun _ => ?_) (fun _ => ih _ _)
      exact .seq (emitTo_still hout) fun _ => .seq (emitTo_still hout) fun _ => ih _ _
  exact .seq (emitTo_still hout) fun _ => .seq (hloop _ _ _) fun _ => emitTo_still hout

theorem printSpine_still {printValue : Val → β → ML β}
    (hp : ∀ v user, h.ValOk v → Triple M (State.Still c h) (printValue v user) (fun _ t => t.Still c h)
      (fun _ u => u.WellFormed c)) (n : Nat) (rest : Val) (user : β) (hrest : h.ValOk rest) :
    Triple M (State.Still c h) (printSpine out printValue n rest user) (fun _ t => t.Still c h)
      (fun _ u => u.WellFormed c) := by
  induction n generalizing rest user with
  | zero => exact .timeout fun _ _ => hM.total
  | succ n ih =>
    refine .fact (mlIsPair_still hrest) fun b hb => .ite (fun hb' => ?_) (fun _ => ?_)
    · refine .seq (emitTo_still hout) fun _ => .fact (car_still (hb.1 hb')) fun elem helem => ?_
      refine .seq (hp elem _ helem) fun _ => .fact (cdr_still (hb.1 hb')) fun rest hrest => ih rest _ hrest
    · exact .ite (fun _ => .seq (emitTo_still hout) fun _ => hp rest _ hrest) (fun _ => .pure fun _ h => h)

theorem printValueInner_still {printValue : Val → β → ML β} {writeStyle : Bool} {user : β}
    (hp : ∀ v user, h.ValOk v → Triple M (State.Still c h) (printValue v user) (fun _ t => t.Still c h)
      (fun _ u => u.WellFormed c)) (hv : h.ValOk v) :
    Triple M (State.Still c h) (printValueInner out writeStyle printValue v user) (fun _ t => t.Still c h)
      (fun _ u => u.WellFormed c) := by
  cases v with
  | fix p => exact emitTo_still hout
  | imm i => cases i <;> exact emitTo_still hout
  | sym i => exact .seq (.gets fun _ h => h) fun _ => emitTo_still hout
  | reserved w => exact hv.elim
  | obj x =>
    refine .fact (mlIsString_still hv) fun b hb => .ite (fun hb' => ?_) (fun _ => ?_)
    · refine .fact (stringBytes_still (hb.1 hb')) fun _ _ => ?_
      exact .ite (fun _ => emitStringQuoted_still hout) (fun _ => emitTo_still hout)
    refine .fact (mlIsPair_still hv) fun b hb => .ite (fun hb' => ?_) (fun _ => ?_)
    · refine .seq (emitTo_still hout) fun _ => .seq ?_ fun _ => emitTo_still hout
      refine .fact (car_still (hb.1 hb')) fun first hfirst => .seq (hp first _ hfirst) fun _ => ?_
      refine .fact (cdr_still (hb.1 hb')) fun rest hrest => .seq (.gets fun _ h => h) fun _ => ?_
      exact printSpine_still hM hout hp _ rest _ hrest
    have hkind : ∀ {α : Type} {mk : α → Obj} {p : Obj → Bool}, (∀ o, p o = true ↔ ∃ x, o = mk x) →
        Triple M (State.Still c h) (isObjType p (.obj x))
          (fun b t => (b = true ↔ ∃ y, h.Has (.obj x) (mk y)) ∧ t.Still c h) (fun _ u => u.WellFormed c) := by
      intro α mk p hpo t ht
      refine wp_mono (isKind_wp hpo fun _ => ht.heap ▸ hv.holds) ?_ (fun _ _ h => h)
      rintro b u ⟨rfl, hb⟩
      rw [ht.heap] at hb
      exact ⟨hb, ht⟩
    refine .fact (hkind fun _ => Obj.isPrim_iff) fun b hb => .ite (fun hb' => ?_) (fun _ => ?_)
    · refine .bind (Q := fun _ t => t.Still c h) (fun t ht => ?_) fun _ => emitTo_still hout
      refine wp_mono (primFields_wp fun _ => ht.heap ▸ hb.1 hb') ?_ (fun _ _ h => h)
      rintro _ _ ⟨rfl, -⟩
      exact ht
    refine .fact (hkind fun _ => Obj.isClosure_iff) fun _ _ => .ite (fun _ => emitTo_still hout) (fun _ => ?_)
    refine .fact (hkind fun _ => Obj.isEnv_iff) fun _ _ => .ite (fun _ => emitTo_still hout)
      (fun _ => emitTo_still hout)

theorem mlPrint_still {writeStyle : Bool} {user : β} (hv : h.ValOk v) :
    Triple M (State.Still c h) (mlPrint out c v writeStyle user) (fun _ t => t.Still c h)
      (fun _ u => u.WellFormed c) := by
  have hprint : ∀ n v user, h.ValOk v → Triple M (State.Still c h) (printValue out c writeStyle n v user)
      (fun _ t => t.Still c h) (fun _ u => u.WellFormed c) := by
    intro n
    induction n with
    | zero => exact fun _ _ _ => .timeout fun _ _ => hM.total
    | succ n ih =>
      intro v user hv
      refine .seq (.gets fun _ h => h) fun depth => .ite (fun _ => raise_still) (fun _ => ?_)
      refine .seq (.modify fun t ht => ht.of_eq rfl rfl rfl) fun _ => .andThen ?_
      exact (printValueInner_still hM hout ih hv).conseq (fun _ h => h) (fun _ _ h => h.of_eq rfl rfl rfl)
        (fun _ t h => h.of_eq rfl (fun _ h => h) (fun _ h => h))
  exact .seq (.gets fun _ h => h) fun _ => hprint _ v user hv

end Printing

omit hM in
theorem stateOutputSink_still {user : Unit} {bytes : Bytes} :
    Triple M (State.Still c h) (stateOutputSink c user bytes) (fun _ t => t.Still c h) (fun _ u => u.WellFormed c) := by
  refine .seq (.gets fun _ h => h) fun _ => .seq (.modify fun t ht => ht.of_eq rfl rfl rfl) fun _ => ?_
  exact .ite (fun _ => .fail fun _ h => h.wf) (fun _ => .pure fun _ h => h)

omit hM in
theorem stateOutputFlush_still :
    Triple M (State.Still c h) (stateOutputFlush c) (fun _ t => t.Still c h) (fun _ u => u.WellFormed c) := by
  refine .seq (.gets fun _ h => h) fun _ => .seq (.modify fun t ht => ht.of_eq rfl rfl rfl) fun _ => ?_
  exact .ite (fun _ => .pure fun _ h => h) (fun _ => .fail fun _ h => h.wf)

end Still

/-! ## Primitives -/

section Results
variable {c : Config} {M : Mode Event} {s : State} {argv : List Val} {α : Type}

/-- A primitive returns a value, in a well-formed state. -/
def Returns (c : Config) (v : Val) (u : State) : Prop := u.WellFormed c ∧ u.heap.ValOk v

theorem Heap.ValOk.inRange {h : Heap} {v : Val} (hv : h.ValOk v) : v.InRange := by
  cases v with
  | fix p => exact hv
  | _ => trivial

theorem Heap.ValOk.plain {h : Heap} {v : Val} (hv : v.Plain) : h.ValOk v := by
  cases v with
  | fix p => exact hv
  | imm i => trivial
  | _ => exact hv.elim

theorem valOk_mlMakeBool {h : Heap} {b : Bool} : h.ValOk (mlMakeBool b) := .plain plain_mlMakeBool

/-- What computes a plain value and changes nothing is safe. -/
theorem plain_safe {m : ML Val} (hs : s.WellFormed c) (h : wp M m s (PlainResult s) (OnlyError s)) :
    wp M m s (Returns c) (fun _ u => u.WellFormed c) := by
  apply wp_mono h
  · rintro v _ ⟨rfl, hv⟩
    exact ⟨hs, .plain hv⟩
  · intro e t ht
    rw [ht]
    exact hs.of_eq rfl (fun _ h => h) (fun _ h => h)

/-- `prim_car` and `prim_cdr`. -/
theorem pairField_safe {field : Val → ML Val} {message : Bytes} (hs : s.WellFormed c)
    (hargs : ∀ v ∈ argv, s.heap.ValOk v) (hlen : 1 ≤ argv.length)
    (hf : ∀ v, (∃ x : Val × Val, s.heap.Has v (.pair x.1 x.2)) → Triple M (State.Still c s.heap) (field v)
      (fun x t => s.heap.ValOk x ∧ t.Still c s.heap) (fun _ u => u.WellFormed c)) :
    wp M (do
      let v ← argvGet argv 0
      if ← mlIsPair v then field v else raise 0 0 message .errType) s (Returns c) (fun _ u => u.WellFormed c) := by
  refine wp_seq (argvGet_wp fun _ => hlen) ?_
  rintro v _ ⟨rfl, hv⟩
  refine Triple.fact (mlIsPair_still (hargs v hv)) (fun b hb => .ite (fun hb' => ?_) fun _ => raise_still) _ ⟨hs, rfl⟩
  exact (hf v (hb.1 hb')).conseq (fun _ h => h) (fun x t h => ⟨h.2.wf, h.2.heap ▸ h.1⟩) (fun _ _ h => h)

theorem definePredicate_safe {test : Val → ML Bool} (hs : s.WellFormed c)
    (hargs : ∀ v ∈ argv, s.heap.ValOk v) (hlen : 1 ≤ argv.length)
    (ht : ∀ v, s.heap.ValOk v → wp M (test v) s (fun _ t => t = s) (fun _ u => u.WellFormed c)) :
    wp M (definePredicate test argv) s (Returns c) (fun _ u => u.WellFormed c) := by
  refine wp_seq (argvGet_wp fun _ => hlen) ?_
  rintro v _ ⟨rfl, hv⟩
  refine wp_seq (ht v (hargs v hv)) ?_
  rintro b _ rfl
  exact wp_pure ⟨hs, valOk_mlMakeBool⟩

theorem test_safe {p : Obj → Bool} {v : Val} {E : Status → State → Prop} (hv : s.heap.ValOk v) :
    wp M (isObjType p v) s (fun _ t => t = s) E :=
  wp_mono (isObjType_wp fun _ => hv.holds) (fun _ _ h => h.1) (fun _ _ h => h)

theorem mlIsProcedure_safe {v : Val} {E : Status → State → Prop} (hv : s.heap.ValOk v) :
    wp M (mlIsProcedure v) s (fun _ t => t = s) E := by
  refine wp_seq (test_safe hv) ?_
  rintro b _ rfl
  split
  · exact wp_pure rfl
  · exact test_safe hv

theorem primError_safe (hs : s.WellFormed c) (hargs : ∀ v ∈ argv, s.heap.ValOk v) :
    wp M (primError argv) s (Returns c) (fun _ u => u.WellFormed c) := by
  unfold primError
  split
  · exact raise_safe hs
  · rename_i v rest
    refine Triple.fact (mlIsString_still (hargs v (by simp))) (fun b hb => .ite (fun hb' => ?_) fun _ => ?_) s ⟨hs, rfl⟩
    · exact .fact (stringBytes_still (hb.1 hb')) fun _ _ => raise_still
    · exact .ite (fun _ => .seq (.gets fun _ h => h) fun _ => raise_still) (fun _ => raise_still)

variable (hM : EvalMode c M)
include hM

/-- A walk over a spine. -/
theorem walkList_still {h : Heap} {v : Val} (n bound : Nat) (hv : h.ValOk v) :
    Triple M (State.Still c h) (walkList bound v n)
      (fun r t => (n ≤ r.1 ∧ (r.2 = mvNil → h.IsList v (r.1 - n))) ∧ t.Still c h) (fun _ u => u.WellFormed c) := by
  induction bound generalizing v n with
  | zero => exact .timeout fun _ _ => hM.total
  | succ bound ih =>
    refine .fact (mlIsPair_still hv) fun b hb => .ite (fun hb' => ?_) (fun _ => ?_)
    · obtain ⟨⟨a, d⟩, hx⟩ := hb.1 hb'
      refine .bind (Q := fun x t => (x = d ∧ h.ValOk x) ∧ t.Still c h) (fun t ht => ?_) fun x => ?_
      · refine wp_mono (cdr_wp fun _ => ⟨a, d, ht.heap ▸ hx⟩) ?_ (fun _ _ h => h)
        rintro y u ⟨rfl, a', hy⟩
        rw [ht.heap] at hy
        cases hx.unique hy
        exact ⟨⟨rfl, (ht.pair hx).2⟩, ht⟩
      · rintro t ⟨⟨rfl, hok⟩, ht⟩
        refine wp_mono (ih (n + 1) hok t ht) (fun r u hr => ⟨⟨by omega, fun hnil => ?_⟩, hr.2⟩) (fun _ _ h => h)
        have : r.1 - n = r.1 - (n + 1) + 1 := by omega
        rw [this]
        exact .cons hx (hr.1.2 hnil)
    · refine .pure fun t ht => ⟨⟨Nat.le_refl _, fun hnil => ?_⟩, ht⟩
      simp only [Nat.sub_self]
      obtain rfl : v = mvNil := hnil
      exact .nil

theorem primLength_safe (hs : s.WellFormed c) (hargs : ∀ v ∈ argv, s.heap.ValOk v) (hlen : 1 ≤ argv.length) :
    wp M (primLength argv) s (Returns c) (fun _ u => u.WellFormed c) := by
  refine wp_seq (argvGet_wp fun _ => hlen) ?_
  rintro v _ ⟨rfl, hv⟩
  refine wp_bind (wp_gets (wp_seq (walkList_still hM 0 _ (hargs v hv) _ ⟨hs, rfl⟩) ?_))
  rintro ⟨n, w⟩ t ⟨-, ht⟩
  dsimp only
  split
  · exact raise_safe ht.wf
  · split
    · exact raise_safe ht.wf
    · rename_i h
      have hn : fitsFixnum n = true := by
        simp only [mFixMax] at h
        exact fits_iff.2 (by omega)
      exact makeFix_wp (hM.madeFix _ hn) ⟨ht.wf, .plain (plain_mlMakeFix hn)⟩

theorem primEqualP_safe (hs : s.WellFormed c) (hargs : ∀ v ∈ argv, s.heap.ValOk v) (hlen : 2 ≤ argv.length) :
    wp M (primEqualP c argv) s (Returns c) (fun _ u => u.WellFormed c) := by
  refine wp_seq (argvGet_wp fun _ => Nat.lt_of_succ_lt hlen) ?_
  rintro a t ⟨rfl, ha⟩
  refine wp_seq (argvGet_wp fun _ => hlen) ?_
  rintro b u ⟨rfl, hb⟩
  have h : Triple M (State.Still c u.heap) (mlValueEqual c a b) (fun _ t => t.Still c u.heap)
      (fun _ u => u.WellFormed c) :=
    .seq (.gets fun _ h => h) fun _ => valueEqual_still hM _ a b (hargs a ha) (hargs b hb)
  exact wp_seq (h u ⟨hs, rfl⟩) fun _ t ht => wp_pure ⟨ht.wf, valOk_mlMakeBool⟩

theorem printAndFlush_safe {writeStyle : Bool} (hs : s.WellFormed c) (hargs : ∀ v ∈ argv, s.heap.ValOk v)
    (hlen : 1 ≤ argv.length) : wp M (printAndFlush c writeStyle argv) s (Returns c) (fun _ u => u.WellFormed c) := by
  refine wp_seq (argvGet_wp fun _ => hlen) ?_
  rintro v t ⟨rfl, hv⟩
  refine wp_seq (mlPrint_still hM (fun _ _ => stateOutputSink_still) (hargs v hv) t ⟨hs, rfl⟩) fun _ u hu => ?_
  exact wp_seq (stateOutputFlush_still u hu) fun _ w hw => wp_pure ⟨hw.wf, trivial⟩

/-! ### Lists built from the end -/

omit hM in
/-- Overwriting the slot above the caller's stack. -/
theorem State.Good.setSlot {t : State} {x y : Val} (h : s.Good c [x] t) (hy : t.heap.ValOk y) :
    s.Good c [y] (gcProtectSet s.gcProtect.length y t) := by
  refine ⟨State.At.setSlot (l := []) h.reached, h.wf.clear, h.wf.objs, h.wf.toplevel, ?_, h.wf.pending⟩
  intro v hv
  rcases List.mem_or_eq_of_mem_set hv with hv | rfl
  · exact h.wf.protect v hv
  · exact .inl hy

omit hM in
/-- The loops that build a list from its end, with the list so far in a slot. -/
theorem slotLoop_safe {loop : Nat → Val → ML Val} {f : Nat → Val → ML Val} {n : Nat}
    (hzero : ∀ head, loop 0 head = pure head)
    (hsucc : ∀ i head, loop (i + 1) head = do
      let cell ← f i head
      modify (gcProtectSet s.gcProtect.length cell)
      loop i cell)
    (hstep : ∀ i head t, i < n → s.Good c [head] t → t.heap.ValOk head →
      wp M (f i head) t (fun v u => s.Good c [head] u ∧ u.heap.ValOk v) (fun _ u => u.WellFormed c)) :
    ∀ i head t, i ≤ n → s.Good c [head] t → t.heap.ValOk head →
      wp M (loop i head) t (fun v u => s.Good c [v] u ∧ u.heap.ValOk v) (fun _ u => u.WellFormed c) := by
  intro i
  induction i with
  | zero =>
    intro head t _ ht hhead
    rw [hzero]
    exact wp_pure ⟨ht, hhead⟩
  | succ i ih =>
    intro head t hi ht hhead
    rw [hsucc]
    refine wp_seq (hstep i head t hi ht hhead) fun v u hu => wp_bind (wp_modify ?_)
    exact ih v _ (by omega) (hu.1.setSlot hu.2) hu.2

omit hM in
/-- A slot for the list so far, around such a loop. -/
theorem slot_safe {loop : Nat → ML Val} (hs : s.WellFormed c)
    (hloop : ∀ t, s.Good c [mvNil] t →
      wp M (loop s.gcProtect.length) t (fun v u => s.Good c [v] u ∧ u.heap.ValOk v) (fun _ u => u.WellFormed c)) :
    wp M (do
      let sp ← mlGcSavepoint
      mlGcProtect c mvNil
      let head ← loop sp
      modify (mlGcRestore sp)
      pure head) s (fun v u => s.Good c [] u ∧ u.heap.ValOk v) (fun _ u => u.WellFormed c) := by
  refine savepoint_safe (wp_seq (mlGcProtect_safe hs (.inl trivial)) fun _ t ht => ?_)
  refine wp_seq (hloop t ht.1) fun v u hu => wp_bind (wp_modify (wp_pure ⟨?_, hu.2⟩))
  exact State.Good.restore (l := []) hu.1

/-- One cell of such a list. -/
theorem consStep_safe {t : State} {xs : List Val} {head elem : Val} (ht : s.Good c xs t) (hmem : head ∈ xs)
    (hhead : t.heap.ValOk head) (helem : s.Holds c elem) :
    wp M (mlGcAllocPair c elem head) t (fun v u => s.Good c xs u ∧ u.heap.ValOk v) (fun _ u => u.WellFormed c) := by
  have helem' := ht.holds helem
  refine wp_mono (gcAlloc_safe hM ht.wf (o := .pair elem head) ⟨helem'.ok, hhead⟩ ?_) ?_ (fun _ _ h => h)
  · intro v hv
    rcases List.mem_pair.1 hv with rfl | rfl
    · exact helem'.kept
    · exact ht.pushed hmem
  · rintro v u ⟨hu, a, rfl, ha⟩
    exact ⟨ht.seq hu, _, ha, rfl⟩

theorem primList_safe (hs : s.WellFormed c) (hargs : ∀ v ∈ argv, s.Holds c v) :
    wp M (primList c argv) s (Returns c) (fun _ u => u.WellFormed c) := by
  refine wp_mono (slot_safe hs fun t ht => ?_) (fun v u h => ⟨h.1.wf, h.2⟩) (fun _ _ h => h)
  refine slotLoop_safe (n := argv.length)
    (f := fun i head => do
      let elem ← argvGet argv i
      (mlGcAllocPair c elem head).onErr (mlGcRestore s.gcProtect.length))
    (fun _ => rfl) (fun i head => ?_) (fun i head t hi ht hhead => ?_) _ _ t (Nat.le_refl _) ht trivial
  · rw [bind_assoc]
    rfl
  · refine wp_seq (argvGet_wp fun _ => hi) ?_
    rintro elem _ ⟨rfl, helem⟩
    exact onErr_restore_safe (consStep_safe hM ht (by simp) hhead (hargs elem helem))

/-! ### The registry -/

omit hM in
/-- The arguments a primitive reads without looking at their count. -/
def PrimFn.reads : PrimFn → Nat
  | .add | .mul | .list | .newline | .error => 0
  | .sub | .div | .car | .cdr | .length | .nullP | .pairP | .numberP | .symbolP | .stringP | .procedureP
  | .booleanP | .not | .display | .write => 1
  | .quotient | .remainder | .modulo | .numEq | .numLt | .numGt | .numLe | .numGe | .cons | .eqP | .eqvP | .equalP => 2

omit hM in
/-- The registry asks for at least the arguments a primitive reads. -/
theorem kPrimitives_reads : ∀ p ∈ kPrimitives, p.2.1.reads ≤ p.2.2.1.toNat := by decide

theorem callPrim_safe {fn : PrimFn} (hs : s.WellFormed c) (hargs : ∀ v ∈ argv, s.Holds c v)
    (hlen : fn.reads ≤ argv.length) :
    wp M (callPrim c fn argv) s (fun v u => s.Good c [] u ∧ u.heap.ValOk v) (fun _ u => u.WellFormed c) := by
  have hok : ∀ v ∈ argv, s.heap.ValOk v := fun v hv => (hargs v hv).ok
  have hin : ∀ v ∈ argv, v.InRange := fun v hv => (hok v hv).inRange
  refine good_of_keeps (callPrim_keeps fun _ _ => trivial) ?_
  cases fn with
  | add => exact plain_safe hs (makeFix_result hM.toCounts (foldFix_wp hin (by decide)))
  | sub => exact plain_safe hs (primSub_wp hM.toCounts hin fun _ => hlen)
  | mul => exact plain_safe hs (makeFix_result hM.toCounts (foldFix_wp hin (by decide)))
  | div => exact plain_safe hs (primDiv_wp hM.toCounts hin fun _ => hlen)
  | quotient => exact plain_safe hs (primQuotient_wp hM.toCounts hin fun _ => hlen)
  | remainder => exact plain_safe hs (primRemainder_wp hM.toCounts hin fun _ => hlen)
  | modulo => exact plain_safe hs (primModulo_wp hM.toCounts hin fun _ => hlen)
  | numEq => exact plain_safe hs (cmpChain_wp hin fun _ => hlen)
  | numLt => exact plain_safe hs (cmpChain_wp hin fun _ => hlen)
  | numGt => exact plain_safe hs (cmpChain_wp hin fun _ => hlen)
  | numLe => exact plain_safe hs (cmpChain_wp hin fun _ => hlen)
  | numGe => exact plain_safe hs (cmpChain_wp hin fun _ => hlen)
  | cons =>
    refine wp_seq (argvGet_wp fun _ => Nat.le_of_succ_le hlen) ?_
    rintro a _ ⟨rfl, ha⟩
    refine wp_seq (argvGet_wp fun _ => hlen) ?_
    rintro d _ ⟨rfl, hd⟩
    refine wp_mono (gcAlloc_safe hM hs (o := .pair a d) ⟨hok a ha, hok d hd⟩ ?_) ?_ (fun _ _ h => h)
    · intro v hv
      rcases List.mem_pair.1 hv with rfl | rfl
      · exact (hargs _ ha).kept
      · exact (hargs _ hd).kept
    · rintro v u ⟨hu, x, rfl, hx⟩
      exact ⟨hu.wf, _, hx, rfl⟩
  | car => exact pairField_safe hs hok hlen fun _ => car_still
  | cdr => exact pairField_safe hs hok hlen fun _ => cdr_still
  | list => exact primList_safe hM hs hargs
  | length => exact primLength_safe hM hs hok hlen
  | nullP => exact definePredicate_safe hs hok hlen fun _ _ => wp_pure rfl
  | pairP => exact definePredicate_safe hs hok hlen fun _ => test_safe
  | numberP => exact definePredicate_safe hs hok hlen fun _ _ => wp_pure rfl
  | symbolP => exact definePredicate_safe hs hok hlen fun _ _ => wp_pure rfl
  | stringP => exact definePredicate_safe hs hok hlen fun _ => test_safe
  | procedureP => exact definePredicate_safe hs hok hlen fun _ => mlIsProcedure_safe
  | booleanP => exact definePredicate_safe hs hok hlen fun _ _ => wp_pure rfl
  | eqP =>
    refine wp_seq (argvGet_wp fun _ => Nat.le_of_succ_le hlen) ?_
    rintro a _ ⟨rfl, -⟩
    refine wp_seq (argvGet_wp fun _ => hlen) ?_
    rintro b _ ⟨rfl, -⟩
    exact wp_pure ⟨hs, valOk_mlMakeBool⟩
  | eqvP =>
    refine wp_seq (argvGet_wp fun _ => Nat.le_of_succ_le hlen) ?_
    rintro a _ ⟨rfl, ha⟩
    refine wp_seq (argvGet_wp fun _ => hlen) ?_
    rintro b _ ⟨rfl, hb⟩
    refine wp_seq (mlValueEqv_still (hok a ha) (hok b hb) _ ⟨hs, rfl⟩) ?_
    exact fun _ t ht => wp_pure ⟨ht.2.wf, valOk_mlMakeBool⟩
  | equalP => exact primEqualP_safe hM hs hok hlen
  | not => exact definePredicate_safe hs hok hlen fun _ _ => wp_pure rfl
  | display => exact printAndFlush_safe hM hs hok hlen
  | write => exact printAndFlush_safe hM hs hok hlen
  | newline =>
    refine wp_seq (stateOutputSink_still s ⟨hs, rfl⟩) fun _ t ht => wp_seq (stateOutputFlush_still t ht)
      fun _ u hu => ?_
    exact wp_pure ⟨hu.wf, trivial⟩
  | error => exact primError_safe hs hok

end Results
end Microlisp
