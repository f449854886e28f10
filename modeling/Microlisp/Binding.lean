import Microlisp.Environments
/-!
# Calls bind arguments

`apply_closure_bind` walks the parameters that `closure_arity` has counted and defines
one variable for each in a new frame. The count is a `uint32_t`, and that is all that can
go wrong.
-/
namespace Microlisp

open Prog

/-! ## What a call is to do -/

/-- A parameter list: its names, and the name of the rest of the arguments. -/
inductive Heap.Formals (h : Heap) : Val → List Val → Option Val → Prop
  | nil : Formals h mvNil [] none
  | rest {i : UInt32} : Formals h (.sym i) [] (some (.sym i))
  | cons {v d : Val} {i : UInt32} {names : List Val} {rest : Option Val} :
      h.Has v (.pair (.sym i) d) → Formals h d names rest → Formals h v (.sym i :: names) rest

/-- A closure with these parameters, as `make_closure` leaves it. -/
def Heap.Closes (h : Heap) (v env : Val) (names : List Val) (rest : Option Val) : Prop :=
  ∃ params body, h.Has v (.closure env params body rest.isSome (UInt32.ofNat names.length)) ∧
    h.Formals params names rest

/-- As many arguments as parameters, or more when there is a rest parameter. -/
def ArityOk (names : List Val) (rest : Option Val) (argv : List Val) : Prop :=
  if rest.isSome then names.length ≤ argv.length else argv.length = names.length

/-- Definitions one after another; of two for a name the last counts. -/
def defineAll (m : Finmap fun _ : Val => Val) (bs : List (Val × Val)) : Finmap fun _ : Val => Val :=
  bs.foldl (fun m b => m.insert b.1 b.2) m

/-- The names of a call, the last for the list of what is left over. -/
def callMap (names : List Val) (rest : Option Val) (argv : List Val) (restList : Val) : Finmap fun _ : Val => Val :=
  defineAll ∅ (names.zip argv ++ rest.toList.map fun name => (name, restList))

/-- A proper list in cells made since `base`. -/
inductive Heap.ListFrom (h : Heap) (base : Nat) : Val → List Val → Prop
  | nil : ListFrom h base mvNil []
  | cons {a : Nat} {v d : Val} {vs : List Val} :
      base ≤ a → h.get a = some (.pair v d) → ListFrom h base d vs → ListFrom h base (.obj a) (v :: vs)

/-- The roots lead to the value, if it is a handle. -/
def State.Roots (c : Config) (s : State) (v : Val) : Prop := ∀ a, v = .obj a → a ≠ 0 → s.Reachable c a

/-- No old object has changed, and only what the roots do not lead to may be gone. -/
def State.Untouched (c : Config) (s t : State) : Prop :=
  ∀ a < s.heap.next, t.heap.get a = s.heap.get a ∨ (t.heap.get a = none ∧ ¬ s.Reachable c a)

/-- A frame made since `s` that binds the parameters to the arguments. -/
def BindsIn (s t : State) (env : Val) (names : List Val) (rest : Option Val) (argv : List Val) (e : Val) : Prop :=
  ∃ a restList, e = .obj a ∧ s.heap.next ≤ a ∧ t.heap.scopes e = some ⟨env, callMap names rest argv restList⟩ ∧
    (rest.isSome = true → t.heap.ListFrom s.heap.next restList (argv.drop names.length))

/-- The call binds the arguments if they fit, and says that they do not otherwise. -/
structure BindsExactly (c : Config) (s : State) (closure env : Val) (names : List Val) (rest : Option Val)
    (argv : List Val) : Prop where
  fits : ArityOk names rest argv → ∃ e, (applyClosureBind c closure argv s).Ends (.ok e) ∧
    BindsIn s (applyClosureBind c closure argv s).state env names rest argv e
  unfit : ¬ ArityOk names rest argv → (applyClosureBind c closure argv s).Ends (.error .errArity)
  untouched : s.Untouched c (applyClosureBind c closure argv s).state

/-! ## Growing states -/

/-- Later in a run: what the roots lead to is kept, and nothing old is changed. -/
structure State.Extends (c : Config) (s t : State) : Prop where
  framed : t.Framed c
  kept : ∀ a o, s.Reachable c a → s.heap.get a = some o → t.heap.get a = some o
  old : ∀ a o, a < s.heap.next → t.heap.get a = some o → s.heap.get a = some o
  next : s.heap.next ≤ t.heap.next
  roots : s.gcProtect <+: t.gcProtect

section Extends
variable {c : Config} {s t u : State} {v w : Val} {a : Nat} {o : Obj} {f : Frame} {bs : List (Val × Val)} {k : Nat}
  {name value : Val} {vs : List Val} {base : Nat}

theorem State.Extends.refl (hs : s.Framed c) : s.Extends c s :=
  ⟨hs, fun _ _ _ ho => ho, fun _ _ _ ho => ho, Nat.le_refl _, List.prefix_refl _⟩

theorem State.Extends.reachable (h : s.Extends c t) (ha : s.Reachable c a) : t.Reachable c a := by
  apply Mark.Reach.mono _ _ ha
  · intro x hx
    obtain ⟨v, hv, hp⟩ := List.mem_filterMap.1 hx
    refine List.mem_filterMap.2 ⟨v, ?_, hp⟩
    rcases List.mem_cons.1 hv with rfl | hv
    · exact List.mem_cons_self
    · exact List.mem_cons_of_mem _ (h.roots.subset hv)
  · rintro x y hx ⟨o, v, ho, hv, hy⟩
    exact ⟨o, v, h.kept x o hx ho, hv, hy⟩

theorem State.Extends.rooted (h : s.Extends c t) (hv : s.Roots c v) : t.Roots c v :=
  fun a ha ha0 => h.reachable (hv a ha ha0)

theorem State.Extends.trans (h : s.Extends c t) (h' : t.Extends c u) : s.Extends c u where
  framed := h'.framed
  kept := fun a o ha ho => h'.kept a o (h.reachable ha) (h.kept a o ha ho)
  old := fun a o ha ho => h.old a o ha (h'.old a o (Nat.lt_of_lt_of_le ha h.next) ho)
  next := Nat.le_trans h.next h'.next
  roots := h.roots.trans h'.roots

/-- What the roots lead to does not dangle. -/
theorem State.Framed.holds (hs : s.Framed c) (hv : s.Roots c v) : s.heap.Holds v := by
  rintro a rfl ha
  exact Option.isSome_iff_exists.1 (hs.sound a (hv a rfl ha))

theorem State.roots_of_mem (hv : v ∈ s.gcProtect) : s.Roots c v := by
  rintro a rfl ha
  exact State.reachable_root (List.mem_cons_of_mem _ hv) ha

theorem State.Roots.field (hv : s.Roots c v) (ho : s.heap.Has v o) (hw : w ∈ o.refs) : s.Roots c w := by
  obtain ⟨a, rfl, ho⟩ := ho
  rintro b rfl hb
  exact (hv a rfl (Nat.ne_of_gt (Heap.lt_next_of_get ho).1)).field ho hw hb

theorem State.Extends.has (h : s.Extends c t) (hv : s.Roots c v) (ho : s.heap.Has v o) : t.heap.Has v o := by
  obtain ⟨a, rfl, ho⟩ := ho
  exact ⟨a, rfl, h.kept a o (hv a rfl (Nat.ne_of_gt (Heap.lt_next_of_get ho).1)) ho⟩

theorem State.Extends.untouched (h : s.Extends c t) : s.Untouched c t := by
  intro a ha
  cases ht : t.heap.get a with
  | some o => exact .inl (h.old a o ha ht).symm
  | none =>
    cases ho : s.heap.get a with
    | none => exact .inl rfl
    | some o =>
      refine .inr ⟨rfl, fun hr => ?_⟩
      rw [h.kept a o hr ho] at ht
      cases ht

theorem State.Extends.of_eq (h : s.Extends c t) (hheap : u.heap = t.heap) (hp : u.gcProtect = t.gcProtect) :
    s.Extends c u where
  framed := h.framed.of_eq hheap hp
  kept := hheap ▸ h.kept
  old := hheap ▸ h.old
  next := hheap ▸ h.next
  roots := hp ▸ h.roots

/-- With other values on the protect stack, above those there were. -/
theorem State.Extends.stack (h : s.Extends c t) (hheap : u.heap = t.heap) (hp : u.gcProtect = s.gcProtect ++ vs)
    (hvs : ∀ v ∈ vs, t.heap.Holds v) : s.Extends c u where
  framed := by
    refine ⟨hheap ▸ h.framed.clear, hheap ▸ h.framed.closed, ?_, hheap ▸ h.framed.frames⟩
    intro v hv
    rw [hheap]
    rcases List.mem_cons.1 hv with rfl | hv
    · exact h.framed.roots _ List.mem_cons_self
    · rcases List.mem_append.1 (hp ▸ hv) with hv | hv
      · exact h.framed.roots v (List.mem_cons_of_mem _ (h.roots.subset hv))
      · exact hvs v hv
  kept := hheap ▸ h.kept
  old := hheap ▸ h.old
  next := hheap ▸ h.next
  roots := hp ▸ List.prefix_append _ _

theorem State.Extends.restore (h : s.Extends c t) : s.Extends c (mlGcRestore s.gcProtect.length t) := by
  have hp : (mlGcRestore s.gcProtect.length t).gcProtect = s.gcProtect ++ [] := by
    rw [List.append_nil]
    exact (List.prefix_iff_eq_take.1 h.roots).symm
  exact h.stack rfl hp (by simp)

/-- A new frame may be written to. -/
theorem State.Extends.rebound (h : s.Extends c t) (ha : s.heap.next ≤ a) (hf : t.heap.get a = some f.obj)
    (hb : t.heap.Rebinds a f name value bs k) :
    s.Extends c { t with heap := t.heap.set a (.env f.parent bs k) } where
  framed := h.framed.rebound hf hb
  kept := by
    intro x o hx ho
    have hne : x ≠ a := Nat.ne_of_lt (Nat.lt_of_lt_of_le (Heap.lt_next_of_get ho).2 ha)
    rw [Heap.get_set, if_neg hne]
    exact h.kept x o hx ho
  old := by
    intro x o hx ho
    rw [Heap.get_set, if_neg (Nat.ne_of_lt (Nat.lt_of_lt_of_le hx ha))] at ho
    exact h.old x o hx ho
  next := h.next
  roots := h.roots

theorem Heap.ListFrom.kept {base : Nat} (hl : s.heap.ListFrom base v vs) (h : s.Extends c t) (hv : s.Roots c v) :
    t.heap.ListFrom base v vs := by
  induction hl with
  | nil => exact .nil
  | @cons a x d xs hbase ho _ ih =>
    have ha : s.heap.Has (.obj a) (.pair x d) := ⟨a, rfl, ho⟩
    obtain ⟨_, ⟨⟩, ho'⟩ := h.has hv ha
    exact .cons hbase ho' (ih (hv.field ha (by simp [Obj.refs])))

theorem Heap.ListFrom.older {h : Heap} {base base' : Nat} (hl : h.ListFrom base v vs) (hbase : base' ≤ base) :
    h.ListFrom base' v vs := by
  induction hl with
  | nil => exact .nil
  | cons ha ho _ ih => exact .cons (Nat.le_trans hbase ha) ho ih

/-- Lists are not made of frames. -/
theorem Heap.ListFrom.beside {h h' : Heap} {base : Nat} (hl : h.ListFrom base v vs) (hf : h.get a = some f.obj)
    (hsame : ∀ b, b ≠ a → h'.get b = h.get b) : h'.ListFrom base v vs := by
  induction hl with
  | nil => exact .nil
  | @cons b x d xs hbase ho _ ih =>
    have hb : b ≠ a := by
      rintro rfl
      rw [hf] at ho
      cases ho
    exact .cons hbase ((hsame b hb).trans ho) ih

end Extends

/-! ## Allocations and definitions -/

section Calls
variable {c : Config} {s t : State} {v w env cur : Val} {a : Nat} {o : Obj} {names argv vs : List Val}
    {rest : Option Val}
  {f : Frame} {name value : Val}

theorem maybeCollect_extends (hs : s.Framed c) : wp Mode.fully (maybeCollect c) s
    (fun _ t => s.Extends c t ∧ t.heap.next = s.heap.next ∧ t.gcProtect = s.gcProtect) (fun _ _ => False) := by
  apply wp_mono (maybeCollect_collects hs) _ fun _ _ h => h
  rintro _ t (⟨-, ht⟩ | ⟨hheap, hp⟩)
  · have hp : t.gcProtect = s.gcProtect := by rw [ht.same]
    refine ⟨⟨(ht.framed hs).1, fun a o ha ho => ht.get.2 ⟨ho, ha⟩, fun a o _ ho => (ht.get.1 ho).1, ?_, ?_⟩,
      ht.next, hp⟩
    · rw [ht.next]
    · rw [hp]
  · exact ⟨(State.Extends.refl hs).of_eq hheap hp, by rw [hheap], hp⟩

/-- With memory granted an object is made, next to what there was. -/
theorem gcAlloc_extends {n : Nat} (hs : s.Framed c) (hc : ∀ n size, c.alloc n size = true) (hn : n ≠ 0)
    (hrefs : ∀ v ∈ o.refs, s.Roots c v)
    (hframe : ∀ h : Heap, (∀ v ∈ o.refs, h.Holds v) → ∀ f : Frame, o = f.obj → f.Sound h.next) :
    wp Mode.fully (gcAlloc c n o) s
      (fun v t => ∃ a, v = .obj a ∧ s.heap.next ≤ a ∧ t.heap.get a = some o ∧ s.Extends c t ∧ t.gcProtect = s.gcProtect)
      (fun _ _ => False) := by
  apply wp_seq (maybeCollect_extends hs)
  rintro _ t ⟨ht, hnext, hp⟩
  apply wp_bind
  apply wp_mono rawAllocOrFail_wp
  · rintro _ u hu
    have hu' : s.Extends c u := by
      rw [hu]
      exact ht.of_eq rfl rfl
    have hheld : ∀ v ∈ o.refs, u.heap.Holds v := fun v hv => hu'.framed.holds (hu'.rooted (hrefs v hv))
    apply wp_mono (linkObject_wp trivial) _ fun _ _ h => h
    rintro v w ⟨rfl, rfl⟩
    have hgrown : s.Extends c { u with heap := u.heap.alloc o } := by
      refine ⟨hu'.framed.alloc hheld (hframe _ hheld), ?_, ?_, Nat.le_succ_of_le hu'.next, hu'.roots⟩
      · intro a o' ha ho
        have hlt := (Heap.lt_next_of_get (hu'.kept a o' ha ho)).2
        rw [Heap.get_alloc, if_neg (Nat.ne_of_lt hlt)]
        exact hu'.kept a o' ha ho
      · intro a o' ha ho
        rw [Heap.get_alloc, if_neg (Nat.ne_of_lt (Nat.lt_of_lt_of_le ha hu'.next))] at ho
        exact hu'.old a o' ha ho
    refine ⟨_, rfl, hu'.next, ?_, hgrown.of_eq rfl rfl, ?_⟩
    · rw [Heap.get_alloc, if_pos rfl]
    · show u.gcProtect = _
      rw [hu]
      exact hp
  · rintro e u ⟨-, hzero | ⟨k, hrefused⟩, -⟩
    · exact hn hzero
    · rw [hc] at hrefused
      cases hrefused

/-- A new frame has a variable defined, and all else stays. -/
theorem mlEnvDefine_extends (ht : s.Extends c t) (hc : ∀ n size, c.alloc n size = true) (ha : s.heap.next ≤ a)
    (hf : t.heap.get a = some f.obj) (hname : mlIsSym name = true) (hvalue : t.heap.Holds value) :
    wp Mode.fully (mlEnvDefine c (.obj a) name value) t
      (fun _ u => s.Extends c u ∧ u.gcProtect = t.gcProtect ∧ (∀ b, b ≠ a → u.heap.get b = t.heap.get b) ∧
        ∃ g : Frame, u.heap.get a = some g.obj ∧ g.parent = f.parent ∧
          bindingMap g.bindings = (bindingMap f.bindings).insert name value)
      (fun _ _ => False) := by
  apply wp_mono (mlEnvDefine_frame ht.framed hf hname hvalue)
  · rintro _ u ⟨bs, k, hb, hu⟩
    rw [hu]
    refine ⟨(ht.rebound ha hf hb).of_eq rfl rfl, rfl, ?_, ⟨f.parent, bs, k⟩, ?_, rfl, hb.map⟩
    · intro b hba
      rw [Heap.get_set, if_neg hba]
    · rw [Heap.get_set, if_pos rfl, hf]
      rfl
  · rintro e u ⟨-, ⟨n, size, hrefused⟩, -⟩
    rw [hc] at hrefused
    cases hrefused

theorem argvGet_bind {β : Type} {g : Val → ML β} {i : Nat} {Q : β → State → Prop} {E : Status → State → Prop}
    (hi : argv[i]? = some v) (h : wp Mode.fully (g v) s Q E) : wp Mode.fully (argvGet argv i >>= g) s Q E := by
  unfold argvGet
  rw [hi]
  exact wp_bind (wp_pure h)

theorem mlGcProtect_extends (hs : s.Framed c) (hc : ∀ n size, c.alloc n size = true) (hv : s.heap.Holds v) :
    wp Mode.fully (mlGcProtect c v) s (fun _ t => s.Extends c t ∧ t.heap = s.heap ∧ t.gcProtect = s.gcProtect ++ [v])
      (fun _ _ => False) := by
  apply wp_mono (mlGcProtect_total hc) _ fun _ _ h => h
  rintro _ t ht
  have hheap : t.heap = s.heap := by rw [ht]
  have hp : t.gcProtect = s.gcProtect ++ [v] := by rw [ht]
  refine ⟨(State.Extends.refl hs).stack hheap hp ?_, hheap, hp⟩
  intro x hx
  cases List.mem_singleton.1 hx
  exact hv

/-! ## The list of what is left over -/

/-- The list grows at its front, in the slot above the old top of the protect stack. -/
theorem buildListLoop_extends {start i : Nat} {head : Val} (ht : s.Extends c t) (hc : ∀ n size, c.alloc n size = true)
    (hargv : ∀ v ∈ argv, s.Roots c v) (hstack : t.gcProtect = s.gcProtect ++ [head])
    (hl : t.heap.ListFrom s.heap.next head vs) (hi : start + i ≤ argv.length) :
    wp Mode.fully (buildListLoop c argv start s.gcProtect.length i head) t
      (fun l u => s.Extends c u ∧ u.gcProtect = s.gcProtect ++ [l] ∧
        u.heap.ListFrom s.heap.next l ((argv.drop start).take i ++ vs))
      (fun _ _ => False) := by
  induction i generalizing t head vs with
  | zero => exact wp_pure ⟨ht, hstack, by simpa using hl⟩
  | succ i ih =>
    have hget : argv[start + i]? = some (argv.get ⟨start + i, by omega⟩) := List.getElem?_eq_getElem _
    have hrooted := hargv _ (List.get_mem argv ⟨start + i, by omega⟩)
    generalize argv.get ⟨start + i, by omega⟩ = elem at hget hrooted
    have htake : (argv.drop start).take (i + 1) ++ vs = (argv.drop start).take i ++ elem :: vs := by
      rw [List.take_add_one, List.getElem?_drop, hget]
      simp
    apply argvGet_bind hget
    have helem := ht.rooted hrooted
    apply wp_seq (wp_onErr (wp_mono (mlGcProtect_extends ht.framed hc (ht.framed.holds helem)) (fun _ _ h => h)
      fun _ _ h => h.elim))
    rintro _ u ⟨hu', hheap, hpush⟩
    have hhead : u.Roots c head := hu'.rooted (State.roots_of_mem (by simp [hstack]))
    have hrefs : ∀ v ∈ (Obj.pair elem head).refs, u.Roots c v := by
      intro v hv
      rcases List.mem_pair.1 hv with rfl | rfl
      · exact hu'.rooted helem
      · exact hhead
    have hcell := gcAlloc_extends (n := 32) hu'.framed hc (by decide) hrefs fun _ _ f hf => by cases f; cases hf
    apply wp_bind
    apply wp_onErr
    apply wp_andThen
    apply wp_mono hcell _ fun _ _ h => h
    rintro _ w ⟨b, rfl, hb, hcell, hw, hprotect⟩
    have htw := hu'.trans hw
    have hstack' : w.gcProtect = s.gcProtect ++ [head, elem] := by
      rw [hprotect, hpush, hstack, List.append_assoc]
      rfl
    have hslot : (gcProtectSet s.gcProtect.length (.obj b) (mlGcUnprotect 1 w)).gcProtect
        = s.gcProtect ++ [.obj b] := by
      simp [gcProtectSet, mlGcUnprotect, hstack', List.take_append]
    apply wp_bind
    apply wp_modify
    rw [htake]
    have hnext : s.heap.next ≤ b := Nat.le_trans (ht.trans hu').next hb
    have hlist : w.heap.ListFrom s.heap.next (.obj b) (elem :: vs) :=
      .cons hnext hcell (hl.kept htw (State.roots_of_mem (by simp [hstack])))
    refine ih ((ht.trans htw).stack (t := w) rfl hslot ?_) hslot hlist (by omega)
    intro v hv
    cases List.mem_singleton.1 hv
    rintro _ ⟨⟩ -
    exact ⟨_, hcell⟩

theorem buildList_extends {start : Nat} (hs : s.Framed c) (hc : ∀ n size, c.alloc n size = true)
    (hargv : ∀ v ∈ argv, s.Roots c v) (hstart : start ≤ argv.length) :
    wp Mode.fully (buildList c argv start argv.length) s
      (fun l t => s.Extends c t ∧ t.gcProtect = s.gcProtect ∧ t.heap.Holds l ∧
        t.heap.ListFrom s.heap.next l (argv.drop start))
      (fun _ _ => False) := by
  have hnil : s.heap.Holds mvNil := nofun
  apply wp_bind (wp_gets _)
  apply wp_seq (mlGcProtect_extends hs hc hnil)
  rintro _ t ⟨ht, hheap, hpush⟩
  apply wp_seq (buildListLoop_extends ht hc hargv hpush .nil (by omega))
  rintro l u ⟨hu, hstack, hl⟩
  apply wp_bind
  apply wp_modify
  have htake : (argv.drop start).take (argv.length - start) = argv.drop start := List.take_of_length_le (by simp)
  have hp : (mlGcRestore s.gcProtect.length u).gcProtect = s.gcProtect := by
    simp [mlGcRestore, hstack]
  rw [htake, List.append_nil] at hl
  exact wp_pure ⟨hu.restore, hp, hu.framed.holds (State.roots_of_mem (by simp [hstack])), hl⟩

/-! ## Parameters -/

/-- Parameters are defined one after another, as far as the count goes. -/
theorem bindParams_extends {n i : Nat} (ht : s.Extends c t) (hc : ∀ n size, c.alloc n size = true)
    (hargv : ∀ v ∈ argv, s.Roots c v) (hcur : s.Roots c cur) (hformals : s.heap.Formals cur names rest)
    (ha : s.heap.next ≤ a) (hf : t.heap.get a = some f.obj) (hn : n ≤ names.length) (hi : i + n ≤ argv.length) :
    wp Mode.fully (bindParams c (.obj a) argv s.gcProtect.length n i cur) t
      (fun v u => s.Extends c u ∧ u.gcProtect = t.gcProtect ∧ s.heap.Formals v (names.drop n) rest ∧
        ∃ g : Frame, u.heap.get a = some g.obj ∧ g.parent = f.parent ∧
          bindingMap g.bindings = defineAll (bindingMap f.bindings) ((names.take n).zip (argv.drop i)))
      (fun _ _ => False) := by
  induction n generalizing t cur names f i with
  | zero => exact wp_pure ⟨ht, rfl, hformals, f, hf, rfl, by simp [defineAll]⟩
  | succ n ih =>
    cases hformals with
    | nil => exact absurd hn (by simp)
    | rest => exact absurd hn (by simp)
    | @cons _ d p names _ ho hd =>
      have hget : argv[i]? = some (argv.get ⟨i, by omega⟩) := List.getElem?_eq_getElem _
      have harg := hargv _ (List.get_mem argv ⟨i, by omega⟩)
      have hdrop : argv.drop i = argv.get ⟨i, by omega⟩ :: argv.drop (i + 1) := List.drop_eq_getElem_cons _
      generalize argv.get ⟨i, by omega⟩ = arg at hget harg hdrop
      apply car_bind (ht.has hcur ho)
      apply argvGet_bind hget
      have hsym : mlIsSym (.sym p) = true := rfl
      have hdefine := mlEnvDefine_extends ht hc ha hf hsym (ht.framed.holds (ht.rooted harg))
      apply wp_seq (wp_onErr (wp_mono hdefine (fun _ _ h => h) fun _ _ h => h.elim))
      rintro _ u ⟨hu, hp, -, g, hg, hparent, hmap⟩
      apply cdr_bind (hu.has hcur ho)
      have hn' : n ≤ names.length := Nat.le_of_succ_le_succ hn
      apply wp_mono (ih hu (hcur.field ho (by simp [Obj.refs])) hd hg hn' (by omega)) _ fun _ _ h => h
      rintro v w ⟨hw, hp', hrest, g', hg', hparent', hmap'⟩
      refine ⟨hw, hp'.trans hp, hrest, g', hg', hparent'.trans hparent, ?_⟩
      rw [hmap', hmap, hdrop]
      rfl

/-! ## Calls -/

theorem Frame.sound_of_env {h : Heap} {parent : Val} (hp : ∀ v ∈ (Obj.env parent [] 0).refs, h.Holds v) (f : Frame)
    (hf : Obj.env parent [] 0 = f.obj) : f.Sound h.next := by
  have hheld := hp parent (by simp [Obj.refs])
  cases f
  cases hf
  exact .new hheld

/-- The count of the names, as a `uint32_t`. -/
theorem length_take_count :
    (names.take (UInt32.ofNat names.length).toNat).length = (UInt32.ofNat names.length).toNat := by
  rw [List.length_take, UInt32.toNat_ofNat']
  exact Nat.min_eq_left (Nat.mod_le _ _)

/-- The two checks. -/
theorem arityOk_iff : ArityOk names rest argv ↔ ¬ (rest.isSome && decide (argv.length < names.length)) = true ∧
    ¬ (!rest.isSome && decide (argv.length ≠ names.length)) = true := by
  unfold ArityOk
  cases rest <;> simp

theorem applyClosureBind_unfit (hcl : s.heap.Closes v env names rest)
    (hunfit : ¬ ArityOk (names.take (UInt32.ofNat names.length).toNat) rest argv) :
    wp Mode.fully (applyClosureBind c v argv) s (fun _ _ => False) (fun e t => e = .errArity ∧ t.heap = s.heap) := by
  obtain ⟨params, body, hcl, -⟩ := hcl
  change s.heap.Has v (Closure.obj ⟨env, params, body, rest.isSome, UInt32.ofNat names.length⟩) at hcl
  rw [arityOk_iff, length_take_count] at hunfit
  apply closureFields_bind hcl
  apply wp_ite
  · exact fun _ => wp_bind (wp_modify (wp_fail ⟨rfl, rfl⟩))
  · intro hmin
    apply wp_ite
    · exact fun _ => wp_bind (wp_modify (wp_fail ⟨rfl, rfl⟩))
    · exact fun hexact => absurd ⟨hmin, hexact⟩ hunfit

/-- The frame of a call is made, and protected while it is filled. -/
theorem newFrame_bind {β : Type} {g : Val → Nat → ML β} {Q : β → State → Prop} {E : Status → State → Prop}
    (hs : s.Framed c)
    (hc : ∀ n size, c.alloc n size = true) (henv : s.Roots c env)
    (h : ∀ a t, s.heap.next ≤ a → t.heap.get a = some (Frame.obj ⟨env, [], 0⟩) → s.Extends c t →
      t.gcProtect = s.gcProtect ++ [.obj a] → wp Mode.fully (g (.obj a) s.gcProtect.length) t Q E) :
    wp Mode.fully (do
      let e ← mlGcAllocEnv c env
      let sp ← mlGcSavepoint
      mlGcProtect c e
      g e sp) s Q E := by
  have hrefs : ∀ w ∈ (Obj.env env [] 0).refs, s.Roots c w := by
    intro w hw
    cases List.mem_singleton.1 hw
    exact henv
  have halloc := gcAlloc_extends (n := 56) hs hc (by decide) hrefs fun _ => Frame.sound_of_env
  apply wp_seq (wp_mono halloc (fun _ _ h => h) fun _ _ h => h.elim)
  rintro _ t ⟨a, rfl, ha, hf, ht, hp⟩
  apply wp_bind
  apply wp_gets
  have hheld : t.heap.Holds (.obj a) := by
    rintro _ ⟨⟩ -
    exact ⟨_, hf⟩
  apply wp_seq (wp_mono (mlGcProtect_extends ht.framed hc hheld) (fun _ _ h => h) fun _ _ h => h.elim)
  rintro _ u ⟨hu, hheap, hpush⟩
  rw [hp] at hpush ⊢
  exact h a u ha (hheap ▸ hf) (ht.trans hu) hpush

/-- The last variable of a call is for the list of what is left over. -/
theorem bindRest_extends {i : UInt32} {n sp : Nat} (ht : s.Extends c t) (hc : ∀ n size, c.alloc n size = true)
    (hargv : ∀ v ∈ argv, s.Roots c v) (ha : s.heap.next ≤ a) (hf : t.heap.get a = some f.obj) (hkept : t.Reachable c a)
    (hn : n ≤ argv.length) :
    wp Mode.fully (do
      let restList ← (buildList c argv n argv.length).onErr (mlGcRestore sp)
      (mlEnvDefine c (.obj a) (.sym i) restList).onErr (mlGcRestore sp) : ML Unit) t
      (fun _ u => s.Extends c u ∧ ∃ l, u.heap.ListFrom s.heap.next l (argv.drop n) ∧
        ∃ g : Frame, u.heap.get a = some g.obj ∧ g.parent = f.parent ∧
          bindingMap g.bindings = (bindingMap f.bindings).insert (.sym i) l)
      (fun _ _ => False) := by
  have hlist := buildList_extends ht.framed hc (fun v hv => ht.rooted (hargv v hv)) hn
  apply wp_seq (wp_onErr (wp_mono hlist (fun _ _ h => h) fun _ _ h => h.elim))
  rintro l u ⟨hu, -, hheld, hl⟩
  have hfu := hu.kept a _ hkept hf
  have hsym : mlIsSym (.sym i) = true := rfl
  apply wp_onErr
  apply wp_mono (mlEnvDefine_extends (ht.trans hu) hc ha hfu hsym hheld) _ fun _ _ h => h.elim
  rintro _ w ⟨hw, -, hsame, g, hg, hparent, hmap⟩
  exact ⟨hw, l, (hl.beside hfu hsame).older ht.next, g, hg, hparent, hmap⟩

/-- Past the check of the count, as many parameters are bound as it says. -/
theorem applyClosureBind_fits (hs : s.Framed c) (hc : ∀ n size, c.alloc n size = true) (hv : s.Roots c v)
    (hargv : ∀ v ∈ argv, s.Roots c v) (hcl : s.heap.Closes v env names rest)
    (hfits : ArityOk (names.take (UInt32.ofNat names.length).toNat) rest argv) :
    wp Mode.fully (applyClosureBind c v argv) s
      (fun e t => s.Extends c t ∧
        (rest.isSome = true ∨ names.length < 2 ^ 32 → names.length < 2 ^ 32 ∧ BindsIn s t env names rest argv e))
      (fun e _ => e = .errSyntax ∧ rest.isSome = true ∧ ¬ names.length < 2 ^ 32) := by
  obtain ⟨params, body, hcl, hformals⟩ := hcl
  change s.heap.Has v (Closure.obj ⟨env, params, body, rest.isSome, UInt32.ofNat names.length⟩) at hcl
  have hparams : s.Roots c params := hv.field hcl (by simp [Closure.obj, Obj.refs])
  -- the count wraps around, so it can only be too small
  have hcount : (UInt32.ofNat names.length).toNat ≤ names.length := by
    rw [UInt32.toNat_ofNat']
    exact Nat.mod_le _ _
  have hall : names.length < 2 ^ 32 → (UInt32.ofNat names.length).toNat = names.length := by
    intro hlt
    rw [UInt32.toNat_ofNat', Nat.mod_eq_of_lt hlt]
  have hargc : (UInt32.ofNat names.length).toNat ≤ argv.length := by
    simp only [ArityOk, length_take_count] at hfits
    split at hfits <;> omega
  rw [arityOk_iff, length_take_count] at hfits
  apply closureFields_bind hcl
  apply wp_ite
  · exact fun hmin => absurd hmin hfits.1
  intro _
  apply wp_ite
  · exact fun hexact => absurd hexact hfits.2
  intro _
  apply newFrame_bind hs hc (hv.field hcl (by simp [Closure.obj, Obj.refs]))
  intro a t ha hf ht hstack
  apply closureFields_bind (ht.has hv hcl)
  have hbind := bindParams_extends (i := 0) ht hc hargv hparams hformals ha hf hcount (by simpa using hargc)
  apply wp_seq (wp_mono hbind (fun _ _ h => h) fun _ _ h => h.elim)
  rintro cur u ⟨hu, hp, hcur, f, hf', hparent, hmap⟩
  -- the stack is taken back whatever was bound
  have hrestore : ∀ w : State, s.Extends c w → (rest.isSome = true ∨ names.length < 2 ^ 32 →
        names.length < 2 ^ 32 ∧ BindsIn s w env names rest argv (.obj a)) →
      wp Mode.fully (do modify (mlGcRestore s.gcProtect.length); pure (.obj a) : ML Val) w
        (fun e t => s.Extends c t ∧
          (rest.isSome = true ∨ names.length < 2 ^ 32 → names.length < 2 ^ 32 ∧ BindsIn s t env names rest argv e))
        (fun e _ => e = .errSyntax ∧ rest.isSome = true ∧ ¬ names.length < 2 ^ 32) := by
    intro w hw hbinds
    apply wp_bind
    apply wp_modify
    exact wp_pure ⟨hw.restore, hbinds⟩
  cases rest with
  | none =>
    apply hrestore u hu
    rintro (hrest | hlt)
    · cases hrest
    · refine ⟨hlt, a, mvNil, rfl, ha, ?_, fun h => by cases h⟩
      rw [Heap.scopes_frame ⟨a, rfl, hf'⟩, hparent, hmap, hall hlt]
      simp [callMap]
      rfl
  | some r =>
    apply wp_ite _ fun hrest => absurd rfl hrest
    intro _
    by_cases hlt : names.length < 2 ^ 32
    · rw [hall hlt, List.drop_length] at hcur
      cases hcur with
      | @rest i =>
        apply wp_ite (fun h => by cases h)
        intro _
        have hkept : u.Reachable c a :=
          State.roots_of_mem (by simp [hp, hstack]) a rfl (Nat.ne_of_gt (Heap.lt_next_of_get hf').1)
        rw [← bind_assoc]
        apply wp_seq (wp_mono (bindRest_extends hu hc hargv ha hf' hkept hargc) (fun _ _ h => h) fun _ _ h => h.elim)
        rintro _ w ⟨hw, l, hl, g, hg, hparent', hmap'⟩
        refine hrestore w hw fun _ => ⟨hlt, a, l, rfl, ha, ?_, fun _ => ?_⟩
        · rw [Heap.scopes_frame ⟨a, rfl, hg⟩, hparent', hparent, hmap', hmap, hall hlt]
          simp [callMap, defineAll, bindingMap]
        · rwa [hall hlt] at hl
    · -- what follows the parameters that are counted is another parameter
      have hmore : (UInt32.ofNat names.length).toNat < names.length :=
        Nat.lt_of_lt_of_le (UInt32.toNat_lt _) (Nat.le_of_not_lt hlt)
      obtain ⟨x, xs, hdrop⟩ := List.exists_cons_of_ne_nil (List.drop_eq_nil_iff.not.2 (Nat.not_le_of_lt hmore))
      rw [hdrop] at hcur
      cases hcur with
      | cons ho _ =>
        obtain ⟨b, rfl, -⟩ := ho
        apply wp_ite
        · exact fun _ => wp_bind (wp_onErr (wp_bind (wp_modify (wp_fail ⟨rfl, rfl, hlt⟩))))
        · exact fun hsym => absurd rfl hsym

/-- Arguments are bound exactly by closures of fewer than 2^32 parameters, and by no others. -/
theorem applyClosureBind_exact (hs : s.Framed c) (hc : ∀ n size, c.alloc n size = true) (hv : s.Roots c v)
    (hcl : s.heap.Closes v env names rest) :
    (∀ argv : List Val, (∀ x ∈ argv, s.Roots c x) → BindsExactly c s v env names rest argv) ↔
    names.length < 2 ^ 32 := by
  constructor
  · intro h
    by_contra hlong
    have hcount : (UInt32.ofNat names.length).toNat < names.length :=
      Nat.lt_of_lt_of_le (UInt32.toNat_lt _) (Nat.le_of_not_lt hlong)
    -- one argument for each parameter
    have hargv : ∀ x ∈ List.replicate names.length mvNil, s.Roots c x := by
      intro x hx
      cases List.eq_of_mem_replicate hx
      exact nofun
    have hexact := h _ hargv
    have hfits : ArityOk names rest (List.replicate names.length mvNil) := by
      cases rest <;> simp [ArityOk]
    obtain ⟨e, he, -⟩ := hexact.fits hfits
    cases rest with
    | none =>
      have hunfit : ¬ ArityOk (names.take (UInt32.ofNat names.length).toNat) none
          (List.replicate names.length mvNil) := by
        intro h
        simp only [ArityOk, length_take_count, List.length_replicate] at h
        exact absurd h (Nat.ne_of_gt hcount)
      obtain ⟨r, hr, hok, -⟩ := ends_of_wp_fully (applyClosureBind_unfit (c := c) hcl hunfit)
      cases he.unique hr
      exact hok e rfl
    | some r =>
      have hchecked : ArityOk (names.take (UInt32.ofNat names.length).toNat) (some r)
          (List.replicate names.length mvNil) := by
        simp only [ArityOk, length_take_count, List.length_replicate]
        exact Nat.le_of_lt hcount
      obtain ⟨r, hr, hok, -⟩ := ends_of_wp_fully (applyClosureBind_fits hs hc hv hargv hcl hchecked)
      cases he.unique hr
      exact hlong ((hok e rfl).2 (.inl rfl)).1
  · intro hlt argv hargv
    have htake : names.take (UInt32.ofNat names.length).toNat = names := by
      rw [UInt32.toNat_ofNat', Nat.mod_eq_of_lt hlt, List.take_length]
    by_cases hfits : ArityOk names rest argv
    · have hrun := applyClosureBind_fits hs hc hv hargv hcl (htake.symm ▸ hfits)
      obtain ⟨r, hr, hok, herror⟩ := ends_of_wp_fully hrun
      cases r with
      | ok e =>
        obtain ⟨ht, hbinds⟩ := hok e rfl
        exact ⟨fun _ => ⟨e, hr, (hbinds (.inr hlt)).2⟩, fun hunfit => absurd hfits hunfit, ht.untouched⟩
      | error e => exact absurd hlt (herror e rfl).2.2
    · have hrun := applyClosureBind_unfit (c := c) hcl (htake.symm ▸ hfits)
      obtain ⟨r, hr, hok, herror⟩ := ends_of_wp_fully hrun
      cases r with
      | ok e => exact (hok e rfl).elim
      | error e =>
        obtain ⟨rfl, hheap⟩ := herror e rfl
        exact ⟨fun h => absurd h hfits, fun _ => hr, fun a _ => .inl (by rw [hheap])⟩

/-! ## Closures that are made -/

theorem Heap.Formals.params {h : Heap} (hf : h.Formals v names rest) : h.Params v rest.isSome names.length := by
  induction hf with
  | nil => exact .nil
  | rest => exact .rest
  | cons ho _ ih => exact .cons ho ih

theorem Heap.Params.formals {h : Heap} {variadic : Bool} {n : Nat} (hp : h.Params v variadic n) :
    ∃ names rest, h.Formals v names rest ∧ rest.isSome = variadic ∧ names.length = n := by
  induction hp with
  | nil => exact ⟨[], none, .nil, rfl, rfl⟩
  | rest => exact ⟨[], some _, .rest, rfl, rfl⟩
  | cons ho _ ih =>
    obtain ⟨names, rest, hf, hrest, hn⟩ := ih
    exact ⟨_ :: names, rest, .cons ho hf, hrest, congrArg (· + 1) hn⟩

theorem Heap.Formals.kept (hf : s.heap.Formals v names rest) (h : s.Extends c t) (hv : s.Roots c v) :
    t.heap.Formals v names rest := by
  induction hf with
  | nil => exact .nil
  | rest => exact .rest
  | cons ho _ ih => exact .cons (h.has hv ho) (ih (hv.field ho (by simp [Obj.refs])))

/-- Whatever has run, closures are as they were made. -/
theorem State.WellFormed.closes (hs : s.WellFormed c) {cl : Closure} (ha : s.heap.get a = some cl.obj) :
    ∃ names rest, s.heap.Closes (.obj a) cl.env names rest := by
  obtain ⟨-, -, ⟨n, hp, harity⟩, -, -⟩ : s.heap.ObjOk cl.obj := hs.objs a _ ha
  obtain ⟨names, rest, hf, hrest, rfl⟩ := hp.formals
  refine ⟨names, rest, cl.params, cl.body, ⟨a, rfl, ?_⟩, hf⟩
  rw [ha, Closure.obj, hrest, harity]

/-- A well-formed state needs its frames sound. -/
theorem State.WellFormed.framed (hs : s.WellFormed c) (hf : ∀ a (f : Frame), s.heap.get a = some f.obj → f.Sound a) :
    s.Framed c := by
  refine ⟨hs.clear, ?_, ?_, hf⟩
  · rintro a o ho _ hv b rfl -
    exact (hs.objs a o ho).live hv
  · intro v hv
    rcases List.mem_cons.1 hv with rfl | hv
    · exact hs.toplevel.holds
    · exact (hs.protect v hv).elim Heap.ValOk.holds Heap.FrameOk.holds

theorem makeClosure_closes {params body : Val} (hs : s.Framed c) (hc : ∀ n size, c.alloc n size = true)
    (hparams : s.heap.Holds params) (hbody : s.heap.Holds body) (henv : s.heap.Holds env)
    (hf : s.heap.Formals params names rest) :
    wp Mode.fully (makeClosure c params body env) s
      (fun v t => s.Extends c t ∧ t.gcProtect = s.gcProtect ∧ t.heap.Holds v ∧ t.heap.Closes v env names rest)
      (fun _ _ => False) := by
  apply wp_seq (closureArity_total hf.params)
  rintro _ s ⟨rfl, rfl⟩
  apply wp_bind
  apply wp_gets
  have hprotect : wp Mode.fully (do mlGcProtect c params; mlGcProtect c body; mlGcProtect c env : ML Unit) s
      (fun _ t => s.Extends c t ∧ t.heap = s.heap ∧ t.gcProtect = s.gcProtect ++ [params, body, env])
        (fun _ _ => False) := by
    apply wp_seq (mlGcProtect_extends hs hc hparams)
    rintro _ t ⟨ht, hheap, hp⟩
    apply wp_seq (mlGcProtect_extends ht.framed hc (hheap ▸ hbody))
    rintro _ u ⟨hu, hheap', hp'⟩
    have hsu : u.heap = s.heap := hheap'.trans hheap
    apply wp_mono (mlGcProtect_extends hu.framed hc (hsu ▸ henv)) _ fun _ _ h => h
    rintro _ w ⟨hw, hheap'', hp''⟩
    exact ⟨(ht.trans hu).trans hw, hheap''.trans hsu, by rw [hp'', hp', hp]; simp⟩
  apply wp_seq (wp_onErr (wp_mono hprotect (fun _ _ h => h) fun _ _ h => h.elim))
  rintro _ t ⟨ht, hheap, hp⟩
  have hrooted : ∀ v ∈ [params, body, env], t.Roots c v := by
    intro v hv
    exact State.roots_of_mem (by rw [hp]; exact List.mem_append_right _ hv)
  have hrefs : ∀ v ∈ (Obj.closure env params body rest.isSome (UInt32.ofNat names.length)).refs, t.Roots c v := by
    intro v hv
    apply hrooted
    simp only [Obj.refs, List.mem_cons, List.not_mem_nil] at hv ⊢
    tauto
  apply wp_andThen
  have halloc := gcAlloc_extends (n := 48) ht.framed hc (by decide) hrefs fun _ _ f hf => by cases f; cases hf
  apply wp_mono halloc _ fun _ _ h => h
  rintro _ u ⟨a, rfl, -, ha, hu, -⟩
  have hf' : u.heap.Formals params names rest := Heap.Formals.kept (by rwa [hheap]) hu (hrooted params (by simp))
  refine ⟨(ht.trans hu).restore, ?_, ?_, params, body, ⟨a, rfl, ha⟩, hf'⟩
  · exact (List.prefix_iff_eq_take.1 (ht.trans hu).roots).symm
  · rintro _ ⟨⟩ -
    exact ⟨_, ha⟩

end Calls

/-! ## Two closures -/

/-- The state with the closure `(lambda (p . q) p)`, which is protected. -/
def State.variadic : State :=
  { State.created with
    heap := ((State.created.heap.alloc (.pair (.sym 13) (.sym 14))).alloc (.pair (.sym 13) mvNil)).alloc
      (.closure (.obj 1) (.obj 2) (.obj 3) true 1)
    gcProtect := [.obj 4] }

theorem State.variadic_framed : State.variadic.Framed .created := by
  have hpair : ∀ {v w : Val} {P : Frame → Prop} (f : Frame), Obj.pair v w = f.obj → P f := fun _ h => by cases h
  have hclosure : ∀ {P : Frame → Prop} (f : Frame), Obj.closure (.obj 1) (.obj 2) (.obj 3) true 1 = f.obj → P f :=
    fun _ h => by cases h
  have hone := State.created_framed.alloc (o := .pair (.sym 13) (.sym 14)) (by simp [Obj.refs, Heap.Holds]) hpair
  have htwo := hone.alloc (o := .pair (.sym 13) mvNil) (by simp [Obj.refs, Heap.Holds]) hpair
  have hrefs : ∀ v ∈ (Obj.closure (.obj 1) (.obj 2) (.obj 3) true 1).refs,
      ((State.created.heap.alloc (.pair (.sym 13) (.sym 14))).alloc (.pair (.sym 13) mvNil)).Holds v := by
    intro v hv
    simp only [Obj.refs, List.mem_cons, List.not_mem_nil, or_false] at hv
    rcases hv with rfl | rfl | rfl <;> · rintro _ ⟨⟩ -; exact ⟨_, rfl⟩
  have hthree := htwo.alloc (o := .closure (.obj 1) (.obj 2) (.obj 3) true 1) hrefs hclosure
  have hstack : ∀ v ∈ [Val.obj 4], State.variadic.heap.Holds v := by
    intro v hv
    cases List.mem_singleton.1 hv
    rintro _ ⟨⟩ -
    exact ⟨_, rfl⟩
  exact ((State.Extends.refl hthree).stack (u := State.variadic) rfl rfl hstack).framed

/-- Of three arguments of `(lambda (p . q) p)` the first is bound to `p` and a list of the others to `q`. -/
theorem applyClosureBind_exact_variadic :
    BindsExactly .created State.variadic (.obj 4) (.obj 1) [.sym 13] (some (.sym 14)) [mvTrue, mvFalse, mvNil] := by
  have hcloses : State.variadic.heap.Closes (.obj 4) (.obj 1) [.sym 13] (some (.sym 14)) :=
    ⟨.obj 2, .obj 3, ⟨4, rfl, rfl⟩, .cons ⟨2, rfl, rfl⟩ .rest⟩
  have hargv : ∀ x ∈ [mvTrue, mvFalse, mvNil], State.variadic.Roots .created x := by
    intro x hx
    simp only [List.mem_cons, List.not_mem_nil, or_false] at hx
    rcases hx with rfl | rfl | rfl <;> exact nofun
  exact (applyClosureBind_exact State.variadic_framed (fun _ _ => rfl) (State.roots_of_mem (by decide)) hcloses).2
    (by decide) _ hargv

theorem Heap.frame_of_alloc {h : Heap} {x d : Val} {a : Nat} {f : Frame}
    (hf : (h.alloc (.pair x d)).get a = some f.obj) :
    h.get a = some f.obj := by
  rw [Heap.get_alloc] at hf
  split at hf
  · cases f
    cases hf
  · exact hf

theorem Heap.frame_of_addParams {h : Heap} {n a : Nat} {f : Frame} (hf : (h.addParams n).1.get a = some f.obj) :
    h.get a = some f.obj := by
  induction n with
  | zero => exact hf
  | succ n ih => exact ih (Heap.frame_of_alloc hf)

theorem State.lambdaForm_framed (n : Nat) : (State.lambdaForm n).Framed .neverCollect := by
  apply (State.lambdaForm_wellFormed n).framed
  intro a f hf
  have hcreated := Heap.frame_of_addParams (Heap.frame_of_alloc (Heap.frame_of_alloc (Heap.frame_of_alloc hf)))
  exact State.created_framed.frames a f hcreated

/-- The closure made of the parameters. -/
theorem makeClosure_params (n : Nat) : ∃ v names,
    (makeClosure .neverCollect (State.params n).2 (.obj (n + 2)) (.obj 1) (State.lambdaForm n)).Ends (.ok v) ∧
    ∃ t : State, t = (makeClosure .neverCollect (State.params n).2 (.obj (n + 2)) (.obj 1) (State.lambdaForm n)).state ∧
      names.length = n ∧ t.Framed .neverCollect ∧ t.heap.Holds v ∧ t.heap.Closes v (.obj 1) names none := by
  obtain ⟨-, -, hbody, hone, hparams⟩ := State.lambdaForm_get n
  obtain ⟨names, rest, hformals, hrest, hlength⟩ := hparams.formals
  have hs := State.lambdaForm_framed n
  have hheld : ∀ {a : Nat} {o : Obj}, (State.lambdaForm n).heap.get a = some o →
      (State.lambdaForm n).heap.Holds (.obj a) := by
    rintro a o ho _ ⟨⟩ -
    exact ⟨o, ho⟩
  have hlist : (State.lambdaForm n).heap.Holds (State.params n).2 := by
    rcases hparams.proper with hnil | ⟨x, a, ha, ho⟩
    · rw [hnil]
      exact nofun
    · rw [ha]
      exact hheld ho
  have hmade := makeClosure_closes (c := .neverCollect) hs (fun _ _ => rfl) hlist (hheld hbody) (hheld hone) hformals
  obtain ⟨v, hv, ht, -, hv', hcloses⟩ := ok_of_wp_fully hmade
  cases rest with
  | some r => cases hrest
  | none => exact ⟨v, names, hv, _, rfl, hlength, ht.framed, hv', hcloses⟩

/-- A closure of 2^32 parameters takes no arguments at all. -/
theorem applyClosureBind_wraps : ∃ v names,
    (makeClosure .neverCollect (State.params (2 ^ 32)).2 (.obj (2 ^ 32 + 2)) (.obj 1)
      (State.lambdaForm (2 ^ 32))).Ends (.ok v) ∧
    names.length = 2 ^ 32 ∧
    ∃ t : State, t = { (makeClosure .neverCollect (State.params (2 ^ 32)).2 (.obj (2 ^ 32 + 2)) (.obj 1)
        (State.lambdaForm (2 ^ 32))).state with gcProtect := [v] } ∧
      t.heap.Closes v (.obj 1) names none ∧ ¬ ArityOk names none [] ∧
        (∃ e, (applyClosureBind .neverCollect v [] t).Ends (.ok e)) ∧
      ¬ BindsExactly .neverCollect t v (.obj 1) names none [] := by
  obtain ⟨v, names, hv, t, ht, hlength, hframed, hheld, hcloses⟩ := makeClosure_params (2 ^ 32)
  refine ⟨v, names, hv, hlength, { t with gcProtect := [v] }, by rw [ht], hcloses, ?_⟩
  have hstack : ({ t with gcProtect := [v] } : State).Framed .neverCollect := by
    refine ⟨hframed.clear, hframed.closed, ?_, hframed.frames⟩
    intro w hw
    rcases List.mem_pair.1 hw with rfl | rfl
    · exact hframed.roots _ List.mem_cons_self
    · exact hheld
  have hunfit : ¬ ArityOk names none [] := by
    intro h
    simp only [ArityOk, Option.isSome_none, Bool.false_eq_true, if_false, List.length_nil] at h
    rw [← h] at hlength
    cases hlength
  have hcount : (UInt32.ofNat names.length).toNat = 0 := by
    rw [hlength]
    rfl
  have hchecked : ArityOk (names.take (UInt32.ofNat names.length).toNat) none [] := by
    rw [hcount]
    rfl
  have hargv : ∀ x ∈ ([] : List Val), ({ t with gcProtect := [v] } : State).Roots .neverCollect x := nofun
  have hrun := applyClosureBind_fits hstack (fun _ _ => rfl) (State.roots_of_mem List.mem_cons_self)
    hargv hcloses hchecked
  obtain ⟨r, hr, -, herror⟩ := ends_of_wp_fully hrun
  cases r with
  | ok e =>
    refine ⟨hunfit, ⟨e, hr⟩, fun hexact => ?_⟩
    cases hr.unique (hexact.unfit hunfit)
  | error e => cases (herror e rfl).2.1

end Microlisp
