import Microlisp.Lib.Scopes
import Microlisp.Trees
/-!
# Environments are chains of finite maps

`env.c` keeps the bindings of a frame in arrays that grow, and frames are shared by the
closures made in them. Whatever is done with frames, in whatever order, and whichever
allocation fails, what is read back is what scopes say.
-/
namespace Microlisp

open Prog

/-! ## The scopes of a heap -/

/-- Bindings as a finite map; of two bindings of a name the first counts. -/
def bindingMap (bs : List (Val × Val)) : Finmap fun _ : Val => Val :=
  (bs.map fun b => (⟨b.1, b.2⟩ : Sigma fun _ : Val => Val)).toFinmap

def Obj.scope : Obj → Option (Scope Val Val)
  | .env parent bindings _ => some ⟨parent, bindingMap bindings⟩
  | _ => none

def Heap.scopes (h : Heap) : Scopes Val Val := fun v => (h.obj? v).bind Obj.scope

/-- A frame binds no name twice, has no more bindings than there is room for, and extends
an older one. -/
structure Frame.Sound (a : Nat) (f : Frame) : Prop where
  names : (f.bindings.map Prod.fst).Nodup
  room : f.bindings.length ≤ f.capacity
  older : ∀ b, f.parent = .obj b → b < a

/-- No handle dangles, and every frame is sound. -/
structure State.Framed (c : Config) (s : State) : Prop where
  clear : s.heap.Clear
  closed : ∀ a o, s.heap.get a = some o → ∀ v ∈ o.refs, s.heap.Holds v
  roots : ∀ v ∈ c.toplevelEnv :: s.gcProtect, s.heap.Holds v
  frames : ∀ a (f : Frame), s.heap.get a = some f.obj → f.Sound a

/-! ## Operations on environments -/

inductive EnvOp where
  | alloc (parent : Val)
  | define (env name value : Val)
  | set (env name value : Val)
  | lookup (env name : Val)

/-- The call, with the value it returns, if it returns one. -/
def EnvOp.run (c : Config) : EnvOp → ML (Option Val)
  | .alloc parent => do
    let v ← mlGcAllocEnv c parent
    pure (some v)
  | .define env name value => do
    mlEnvDefine c env name value
    pure none
  | .set env name value => do
    mlEnvSet env name value
    pure none
  | .lookup env name => do
    let v ← mlEnvLookup env name
    pure (some v)

/-- No argument is a handle that dangles, or will when the allocation has collected. -/
def EnvOp.Ready (c : Config) (s : State) : EnvOp → Prop
  | .alloc parent => s.heap.Holds parent ∧ (c.collectDue s = true → ∀ b, parent = .obj b → b ≠ 0 → s.Reachable c b)
  | .define env _ value => s.heap.Holds env ∧ s.heap.Holds value
  | .set env _ value => s.heap.Holds env ∧ s.heap.Holds value
  | .lookup env _ => s.heap.Holds env

/-- What the operations do to scopes. An allocation may fail, and may take away frames that
the roots do not lead to. -/
inductive EnvStep (roots : List Val) : Scopes Val Val → EnvOp → Except Status (Option Val) → Scopes Val Val → Prop
  | alloc {S T : Scopes Val Val} {a parent : Val} : S.Forgets roots T → S a = none →
      EnvStep roots S (.alloc parent) (.ok (some a)) (T.extend a parent)
  | allocFails {S T : Scopes Val Val} {parent : Val} : S.Forgets roots T →
      EnvStep roots S (.alloc parent) (.error .errNomem) T
  | define {S : Scopes Val Val} {env name value : Val} {f : Scope Val Val} : S env = some f → mlIsSym name = true →
      EnvStep roots S (.define env name value) (.ok none) (S.assign env name value)
  | defineFails {S : Scopes Val Val} {env name value : Val} {f : Scope Val Val} : S env = some f → mlIsSym name = true →
      name ∉ f.vars → EnvStep roots S (.define env name value) (.error .errNomem) S
  | defineInvalid {S : Scopes Val Val} {env name value : Val} : S env = none ∨ mlIsSym name = false →
      EnvStep roots S (.define env name value) (.error .errInvalidArg) S
  | set {S : Scopes Val Val} {env name value b x : Val} : mlIsSym name = true → S.Binds name env b x →
      EnvStep roots S (.set env name value) (.ok none) (S.assign b name value)
  | setUnbound {S : Scopes Val Val} {env name value : Val} : mlIsSym name = true → S.Unbound name env →
      EnvStep roots S (.set env name value) (.error .errUnbound) S
  | setInvalid {S : Scopes Val Val} {env name value : Val} : mlIsSym name = false →
      EnvStep roots S (.set env name value) (.error .errInvalidArg) S
  | lookup {S : Scopes Val Val} {env name b x : Val} : mlIsSym name = true → S.Binds name env b x →
      EnvStep roots S (.lookup env name) (.ok (some x)) S
  | lookupUnbound {S : Scopes Val Val} {env name : Val} : mlIsSym name = true → S.Unbound name env →
      EnvStep roots S (.lookup env name) (.error .errUnbound) S
  | lookupInvalid {S : Scopes Val Val} {env name : Val} : mlIsSym name = false →
      EnvStep roots S (.lookup env name) (.error .errInvalidArg) S

/-! ## Binding lists -/

section Bindings
variable {bs bs' : List (Val × Val)} {name value n : Val}

theorem lookup_bindingMap : (bindingMap bs).lookup n = (bs.find? (fun b => b.1 = n)).map Prod.snd := by
  rw [bindingMap, Finmap.dlookup_list_toFinmap]
  induction bs with
  | nil => rfl
  | cons b bs ih =>
    by_cases hb : b.1 = n
    · subst hb
      simp
    · rw [List.map_cons, List.dlookup_cons_ne _ _ (Ne.symm hb), ih, List.find?_cons_of_neg (by simpa using hb)]

theorem mem_bindingMap : n ∈ bindingMap bs ↔ n ∈ bs.map Prod.fst := by
  rw [← Finmap.lookup_isSome, lookup_bindingMap, Option.isSome_map, List.find?_isSome]
  simp

theorem assign_eq_none : assign name value bs = none ↔ name ∉ bs.map Prod.fst := by
  induction bs with
  | nil => simp [assign]
  | cons b bs ih =>
    by_cases hb : b.1 = name
    · simp [assign, hb]
    · simp [assign, hb, ih, Ne.symm hb]

theorem find_assign (h : assign name value bs = some bs') :
    bs'.find? (fun b => b.1 = n) = if n = name then some (name, value) else bs.find? (fun b => b.1 = n) := by
  induction bs generalizing bs' with
  | nil => cases h
  | cons b bs ih =>
    simp only [assign] at h
    split at h
    · rename_i hb
      cases h
      by_cases hn : n = name
      · simp [hn]
      · simp [hn, hb, Ne.symm hn]
    · rename_i hb
      obtain ⟨bs₁, hbs, rfl⟩ := Option.map_eq_some_iff.1 h
      by_cases hbn : b.1 = n
      · have hn : n ≠ name := fun hn => hb (hbn.trans hn)
        simp [hbn, hn]
      · rw [List.find?_cons_of_neg (by simpa using hbn), ih hbs, List.find?_cons_of_neg (by simpa using hbn)]

theorem lookup_insert_ite {m : Finmap fun _ : Val => Val} :
    (m.insert name value).lookup n = if n = name then some value else m.lookup n := by
  split
  · rename_i hn
    rw [hn, Finmap.lookup_insert]
  · rename_i hn
    exact Finmap.lookup_insert_of_ne _ hn

/-- Replacing a binding. -/
theorem bindingMap_assign (h : assign name value bs = some bs') :
    bindingMap bs' = (bindingMap bs).insert name value := by
  apply Finmap.ext_lookup
  intro n
  rw [lookup_bindingMap, find_assign h, lookup_insert_ite, lookup_bindingMap]
  split <;> rfl

/-- Adding one. -/
theorem bindingMap_append (h : name ∉ bs.map Prod.fst) :
    bindingMap (bs ++ [(name, value)]) = (bindingMap bs).insert name value := by
  apply Finmap.ext_lookup
  intro n
  rw [lookup_bindingMap, List.find?_append, lookup_insert_ite, lookup_bindingMap]
  by_cases hn : n = name
  · subst hn
    have hnone : bs.find? (fun b => b.1 = n) = none := by
      rw [List.find?_eq_none]
      intro b hb hbn
      exact h (List.mem_map.2 ⟨b, hb, by simpa using hbn⟩)
    simp [hnone]
  · simp [hn, Ne.symm hn]

end Bindings

/-! ## Frames in the heap -/

section Frames
variable {c : Config} {s t : State} {h : Heap} {a : Nat} {v name value : Val} {f : Frame}
    {bs : List (Val × Val)} {k : Nat}

theorem Heap.scopes_frame (hf : h.Has v f.obj) : h.scopes v = some ⟨f.parent, bindingMap f.bindings⟩ := by
  rw [scopes, obj?_eq_some.2 hf]
  rfl

theorem Heap.scopes_none (hv : ¬ ∃ f : Frame, h.Has v f.obj) : h.scopes v = none := by
  unfold scopes
  cases ho : h.obj? v with
  | none => rfl
  | some o =>
    cases o with
    | env p bs k => exact absurd ⟨⟨p, bs, k⟩, obj?_eq_some.1 ho⟩ hv
    | _ => rfl

theorem Heap.scopes_eq_some {g : Scope Val Val} (hv : h.scopes v = some g) :
    ∃ f : Frame, h.Has v f.obj ∧ g = ⟨f.parent, bindingMap f.bindings⟩ := by
  by_cases hf : ∃ f : Frame, h.Has v f.obj
  · obtain ⟨f, hf⟩ := hf
    rw [scopes_frame hf] at hv
    exact ⟨f, hf, (Option.some.inj hv).symm⟩
  · rw [scopes_none hf] at hv
    cases hv

/-- Writing a frame back with one more binding, or another value for a name. -/
theorem Heap.scopes_set (hf : h.get a = some f.obj) (hbs : bindingMap bs = (bindingMap f.bindings).insert name value) :
    (h.set a (.env f.parent bs k)).scopes = h.scopes.assign (.obj a) name value := by
  funext v
  by_cases hv : v = .obj a
  · subst hv
    have hset : (h.set a (.env f.parent bs k)).Has (.obj a) (Frame.obj ⟨f.parent, bs, k⟩) :=
      ⟨a, rfl, by rw [Heap.get_set, if_pos rfl, hf]; rfl⟩
    rw [scopes_frame hset, Scopes.assign, if_pos rfl, scopes_frame ⟨a, rfl, hf⟩, hbs]
    rfl
  · rw [Scopes.assign, if_neg hv]
    cases v with
    | obj b =>
      have hb : b ≠ a := fun hb => hv (hb ▸ rfl)
      simp only [scopes, obj?, Heap.get_set, if_neg hb]
    | _ => rfl

theorem Heap.scopes_alloc {parent : Val} :
    (h.alloc (.env parent [] 0)).scopes = h.scopes.extend (.obj h.next) parent := by
  funext v
  cases v with
  | obj b =>
    by_cases hb : b = h.next
    · subst hb
      simp [scopes, obj?, Heap.get_alloc, Scopes.extend, Obj.scope, bindingMap]
    · simp [scopes, obj?, Heap.get_alloc, Scopes.extend, hb]
  | _ => simp [scopes, obj?, Scopes.extend]

theorem Heap.scopes_next : h.scopes (.obj h.next) = none := by
  apply scopes_none
  rintro ⟨f, a, ha, hf⟩
  cases ha
  exact absurd (Heap.lt_next_of_get hf).2 (Nat.lt_irrefl _)

/-- Only the heap and the protect stack count. -/
theorem State.Framed.of_eq (hs : s.Framed c) (hheap : t.heap = s.heap) (hp : t.gcProtect = s.gcProtect) :
    t.Framed c where
  clear := hheap ▸ hs.clear
  closed := hheap ▸ hs.closed
  roots := by
    rw [hheap, hp]
    exact hs.roots
  frames := hheap ▸ hs.frames

/-- Overwriting an object loses none. -/
theorem Heap.Holds.set {o : Obj} (hv : h.Holds v) : (h.set a o).Holds v := by
  rintro b rfl hb
  obtain ⟨o', ho'⟩ := hv b rfl hb
  rw [Heap.get_set, ho']
  split
  · exact ⟨o, rfl⟩
  · exact ⟨o', rfl⟩

theorem Heap.Holds.alloc {o : Obj} (hv : h.Holds v) : (h.alloc o).Holds v := by
  rintro b rfl hb
  obtain ⟨o', ho'⟩ := hv b rfl hb
  exact ⟨o', by rw [Heap.get_alloc, if_neg (Nat.ne_of_lt (Heap.lt_next_of_get ho').2), ho']⟩

theorem State.Framed.set (hs : s.Framed c) (hf : s.heap.get a = some f.obj) (hsound : Frame.Sound a ⟨f.parent, bs, k⟩)
    (hbs : ∀ b ∈ bs, s.heap.Holds b.1 ∧ s.heap.Holds b.2) :
    ({ s with heap := s.heap.set a (.env f.parent bs k) } : State).Framed c where
  clear := by
    intro d hd
    obtain ⟨d', hd', rfl⟩ := List.mem_map.1 hd
    have := hs.clear d' hd'
    split <;> exact this
  closed := by
    intro b o ho v hv
    apply Heap.Holds.set
    rw [Heap.get_set] at ho
    split at ho
    · obtain ⟨o', -, rfl⟩ := Option.map_eq_some_iff.1 ho
      rcases List.mem_cons.1 hv with rfl | hv
      · exact hs.closed a _ hf f.parent (by simp [Frame.obj, Obj.refs])
      · obtain ⟨p, hp, hv⟩ := List.mem_flatMap.1 hv
        rcases List.mem_pair.1 hv with rfl | rfl
        · exact (hbs p hp).2
        · exact (hbs p hp).1
    · exact hs.closed b o ho v hv
  roots := fun v hv => (hs.roots v hv).set
  frames := by
    intro b g hg
    rw [Heap.get_set] at hg
    split at hg
    · rename_i hb
      obtain ⟨o', -, ho'⟩ := Option.map_eq_some_iff.1 hg
      cases hb
      cases g
      cases ho'
      exact hsound
    · exact hs.frames b g hg

theorem State.Framed.alloc {o : Obj} (hs : s.Framed c) (ho : ∀ v ∈ o.refs, s.heap.Holds v)
    (hframe : ∀ f : Frame, o = f.obj → f.Sound s.heap.next) : ({ s with heap := s.heap.alloc o } : State).Framed c where
  clear := by
    intro d hd
    rcases List.mem_cons.1 hd with rfl | hd
    · rfl
    · exact hs.clear d hd
  closed := by
    intro b o' ho' v hv
    apply Heap.Holds.alloc
    rw [Heap.get_alloc] at ho'
    split at ho'
    · cases ho'
      exact ho v hv
    · exact hs.closed b o' ho' v hv
  roots := fun v hv => (hs.roots v hv).alloc
  frames := by
    intro b g hg
    rw [Heap.get_alloc] at hg
    split at hg
    · rename_i hb
      rw [hb]
      exact hframe g (Option.some.inj hg)
    · exact hs.frames b g hg

/-- A new frame is sound: what it extends has been made before it. -/
theorem Frame.Sound.new {parent : Val} (hp : h.Holds parent) : Frame.Sound h.next ⟨parent, [], 0⟩ := by
  refine ⟨.nil, Nat.le_refl _, ?_⟩
  rintro x rfl
  by_cases hx : x = 0
  · rw [hx]
    exact h.next_pos
  · obtain ⟨o, ho⟩ := hp x rfl hx
    exact (Heap.lt_next_of_get ho).2

/-! ## Collections -/

theorem State.Framed.sound (hs : s.Framed c) : s.Sound c := by
  apply State.sound_of_closed
  · intro a ha
    obtain ⟨v, hv, hp⟩ := List.mem_filterMap.1 ha
    obtain ⟨rfl, hpos⟩ := Val.ptr_eq_some.1 hp
    exact Option.isSome_iff_exists.2 (hs.roots _ hv a rfl (Nat.ne_of_gt hpos))
  · intro d hd b hb
    obtain ⟨v, hv, hp⟩ := List.mem_filterMap.1 hb
    obtain ⟨rfl, hpos⟩ := Val.ptr_eq_some.1 hp
    exact Option.isSome_iff_exists.2 (hs.closed d.addr d.obj (Heap.get_eq_some.2 ⟨d, hd, rfl, rfl⟩) _ hv b rfl
      (Nat.ne_of_gt hpos))

theorem State.reachable_root {b : Nat} (hv : .obj b ∈ c.toplevelEnv :: s.gcProtect) (hb : b ≠ 0) : s.Reachable c b :=
  .root (List.mem_filterMap.2 ⟨_, hv, Val.ptr_eq_some.2 ⟨rfl, Nat.pos_of_ne_zero hb⟩⟩)

/-- What the roots lead to through frames alone is reachable. -/
theorem State.reachable_of_scopes (hr : s.heap.scopes.Reaches (c.toplevelEnv :: s.gcProtect) v) :
    ∀ b, v = .obj b → b ≠ 0 → s.Reachable c b := by
  induction hr with
  | root hv =>
    rintro b rfl hb
    exact State.reachable_root hv hb
  | parent _ hf ih =>
    rintro b hparent hb
    obtain ⟨f, ⟨x, rfl, hx⟩, rfl⟩ := Heap.scopes_eq_some hf
    have hx0 : x ≠ 0 := Nat.ne_of_gt (Heap.lt_next_of_get hx).1
    exact (ih x rfl hx0).field hx (by simp [Frame.obj, Obj.refs, ← hparent]) hb
  | value _ hf hlookup ih =>
    rintro b rfl hb
    obtain ⟨f, ⟨x, rfl, hx⟩, rfl⟩ := Heap.scopes_eq_some hf
    have hx0 : x ≠ 0 := Nat.ne_of_gt (Heap.lt_next_of_get hx).1
    rw [lookup_bindingMap] at hlookup
    obtain ⟨p, hp, hvalue⟩ := Option.map_eq_some_iff.1 hlookup
    refine (ih x rfl hx0).field hx ?_ hb
    simp only [Frame.obj, Obj.refs, List.mem_cons, List.mem_flatMap]
    exact .inr ⟨p, List.mem_of_find?_eq_some hp, by simp [hvalue]⟩

theorem Collected.framed (h : Collected c s t) (hs : s.Framed c) :
    t.Framed c ∧ s.heap.scopes.Forgets (c.toplevelEnv :: s.gcProtect) t.heap.scopes := by
  have hheld : ∀ v, s.heap.Holds v → (∀ b, v = .obj b → b ≠ 0 → s.Reachable c b) → t.heap.Holds v := by
    rintro v hv hr b rfl hb
    obtain ⟨o, ho⟩ := hv b rfl hb
    exact ⟨o, h.get.2 ⟨ho, hr b rfl hb⟩⟩
  have hprotect : t.gcProtect = s.gcProtect := by rw [h.same]
  refine ⟨⟨?_, ?_, ?_, ?_⟩, ⟨?_, ?_⟩⟩
  · intro d hd
    rw [h.cells] at hd
    exact hs.clear d (List.mem_filter.1 hd).1
  · intro a o ho v hv
    obtain ⟨ho, ha⟩ := h.get.1 ho
    apply hheld v (hs.closed a o ho v hv)
    rintro b rfl hb
    exact ha.field ho hv hb
  · intro v hv
    rw [hprotect] at hv
    apply hheld v (hs.roots v hv)
    rintro b rfl hb
    exact State.reachable_root hv hb
  · exact fun a f hf => hs.frames a f (h.get.1 hf).1
  · intro v hr
    by_cases hf : ∃ f : Frame, s.heap.Has v f.obj
    · obtain ⟨f, a, rfl, hf⟩ := hf
      have ha : s.Reachable c a := State.reachable_of_scopes hr a rfl (Nat.ne_of_gt (Heap.lt_next_of_get hf).1)
      rw [Heap.scopes_frame ⟨a, rfl, hf⟩, Heap.scopes_frame ⟨a, rfl, h.get.2 ⟨hf, ha⟩⟩]
    · rw [Heap.scopes_none hf, Heap.scopes_none]
      rintro ⟨f, a, rfl, ha⟩
      exact hf ⟨f, a, rfl, (h.get.1 ha).1⟩
  · intro v
    by_cases hf : ∃ f : Frame, t.heap.Has v f.obj
    · obtain ⟨f, a, rfl, hf⟩ := hf
      left
      rw [Heap.scopes_frame ⟨a, rfl, hf⟩, Heap.scopes_frame ⟨a, rfl, (h.get.1 hf).1⟩]
    · exact .inr (Heap.scopes_none hf)

/-- An allocation collects first, or leaves the heap alone. -/
theorem maybeCollect_collects (hs : s.Framed c) : wp Mode.fully (maybeCollect c) s
    (fun _ t => (c.collectDue s = true ∧ Collected c s t) ∨ (t.heap = s.heap ∧ t.gcProtect = s.gcProtect))
      (fun _ _ => False) := by
  apply wp_bind (wp_gets _)
  apply wp_ite
  · intro hdue
    have hcollect := mlGcCollect_spec (M := Mode.fully) (E := fun _ _ => False) (c := c) (s := s)
      ⟨fun _ => trivial, trivial, fun _ => trivial⟩ (fun _ _ => trivial) hs.clear fun _ => hs.sound
    apply wp_mono hcollect _ fun _ _ h => h
    rintro _ t (⟨ht, -⟩ | ⟨ht, -⟩)
    · exact .inl ⟨hdue, ht⟩
    · rw [ht]
      exact .inr ⟨rfl, rfl⟩
  · exact fun _ => wp_pure (.inr ⟨rfl, rfl⟩)

theorem maybeCollect_framed (hs : s.Framed c) (hv : s.heap.Holds v)
    (hrooted : c.collectDue s = true → ∀ b, v = .obj b → b ≠ 0 → s.Reachable c b) : wp Mode.fully (maybeCollect c) s
    (fun _ t => t.Framed c ∧ s.heap.scopes.Forgets (c.toplevelEnv :: s.gcProtect) t.heap.scopes ∧
      t.gcProtect = s.gcProtect ∧
      t.heap.Holds v ∧ t.heap.next = s.heap.next)
    (fun _ _ => False) := by
  apply wp_mono (maybeCollect_collects hs) _ fun _ _ h => h
  rintro _ t (⟨hdue, ht⟩ | ⟨hheap, hprotect⟩)
  · refine ⟨(ht.framed hs).1, (ht.framed hs).2, by rw [ht.same], ?_, ht.next⟩
    rintro b rfl hb
    obtain ⟨o, ho⟩ := hv b rfl hb
    exact ⟨o, ht.get.2 ⟨ho, hrooted hdue b rfl hb⟩⟩
  · rw [hheap]
    exact ⟨hs.of_eq hheap hprotect, .refl, hprotect, hv, rfl⟩

/-! ## Runs -/

/-- The step that the call takes, seen as one of scopes. -/
structure State.Steps (c : Config) (s : State) (op : EnvOp) (r : Except Status (Option Val)) (t : State) : Prop where
  framed : t.Framed c
  step : EnvStep (c.toplevelEnv :: s.gcProtect) s.heap.scopes op r t.heap.scopes
  protect : t.gcProtect = s.gcProtect

/-- The call returns, by such a step. -/
def Steps (c : Config) (s : State) (op : EnvOp) : Prop :=
  wp Mode.fully (op.run c) s (fun r t => s.Steps c op (.ok r) t) (fun e t => s.Steps c op (.error e) t)

theorem rawAllocOrFail_framed {size : Nat} (hs : s.Framed c) : wp Mode.fully (rawAllocOrFail c size) s
    (fun _ t => t.Framed c ∧ t.heap = s.heap ∧ t.gcProtect = s.gcProtect)
    (fun e t => e = .errNomem ∧ t.Framed c ∧ t.heap = s.heap ∧ t.gcProtect = s.gcProtect) := by
  apply wp_mono rawAllocOrFail_wp
  · intro _ t ht
    rw [ht]
    exact ⟨hs.of_eq rfl rfl, rfl, rfl⟩
  · rintro e t ⟨rfl, -, ht⟩
    rw [ht]
    exact ⟨rfl, hs.of_eq rfl rfl, rfl, rfl⟩

theorem alloc_steps {parent : Val} (hs : s.Framed c) (hready : EnvOp.Ready c s (.alloc parent)) :
    Steps c s (.alloc parent) := by
  have halloc : wp Mode.fully (mlGcAllocEnv c parent) s (fun v t => s.Steps c (.alloc parent) (.ok (some v)) t)
      (fun e t => s.Steps c (.alloc parent) (.error e) t) := by
    apply wp_bind
    apply wp_mono (maybeCollect_framed hs hready.1 hready.2) _ fun _ _ h => h.elim
    rintro _ t ⟨ht, hforgets, hprotect, hparent, hnext⟩
    apply wp_bind
    apply wp_mono (rawAllocOrFail_framed ht)
    · rintro _ u ⟨hu, hheap, hprotect'⟩
      apply wp_mono (linkObject_wp trivial) _ fun _ _ h => h
      rintro v w ⟨rfl, rfl⟩
      have hheld : u.heap.Holds parent := hheap ▸ hparent
      have hrefs : ∀ v ∈ (Obj.env parent [] 0).refs, u.heap.Holds v := by
        intro v hv
        cases List.mem_singleton.1 hv
        exact hheld
      have hnew : ∀ f : Frame, Obj.env parent [] 0 = f.obj → f.Sound u.heap.next := by
        rintro ⟨⟩ ⟨⟩
        exact .new hheld
      refine ⟨(hu.alloc hrefs hnew).of_eq rfl rfl, ?_, hprotect'.trans hprotect⟩
      show EnvStep _ _ _ _ (u.heap.alloc _).scopes
      rw [Heap.scopes_alloc, hheap]
      exact .alloc hforgets (hnext ▸ Heap.scopes_next)
    · rintro e u ⟨rfl, hu, hheap, hprotect'⟩
      exact ⟨hu, hheap ▸ .allocFails hforgets, hprotect'.trans hprotect⟩
  apply wp_bind
  apply wp_mono halloc _ fun _ _ h => h
  exact fun v t ht => wp_pure ht

theorem Frame.obj_inj {f g : Frame} (h : f.obj = g.obj) : f = g := by
  cases f
  cases g
  cases h
  rfl

/-- The values in a frame do not dangle. -/
theorem State.Framed.bindings (hs : s.Framed c) (hf : s.heap.get a = some f.obj) {b : Val × Val} (hb : b ∈ f.bindings) :
    s.heap.Holds b.1 ∧ s.heap.Holds b.2 := by
  have hrefs : ∀ v ∈ [b.2, b.1], v ∈ f.obj.refs :=
    fun v hv => List.mem_cons_of_mem _ (List.mem_flatMap.2 ⟨b, hb, hv⟩)
  exact ⟨hs.closed a _ hf _ (hrefs _ (by simp)), hs.closed a _ hf _ (hrefs _ (by simp))⟩

/-- In the frame `f` at `a`, the bindings `bs`, with room for `k`, bind the name anew. -/
structure Heap.Rebinds (h : Heap) (a : Nat) (f : Frame) (name value : Val) (bs : List (Val × Val)) (k : Nat) :
    Prop where
  sound : Frame.Sound a ⟨f.parent, bs, k⟩
  held : ∀ b ∈ bs, h.Holds b.1 ∧ h.Holds b.2
  map : bindingMap bs = (bindingMap f.bindings).insert name value

/-- In place of an old value. -/
theorem rebinds_assign (hs : s.Framed c) (hf : s.heap.get a = some f.obj) (hvalue : s.heap.Holds value)
    (hassign : assign name value f.bindings = some bs) : s.heap.Rebinds a f name value bs f.capacity := by
  have hnames := assign_names hassign
  have hframe := hs.frames a f hf
  have hlength : bs.length = f.bindings.length := by
    rw [← List.length_map Prod.fst, hnames, List.length_map]
  refine ⟨⟨hnames ▸ hframe.names, hlength ▸ hframe.room, hframe.older⟩, ?_, bindingMap_assign hassign⟩
  intro b hb
  rcases assign_mem hassign hb with hb | ⟨rfl, hname⟩
  · exact hs.bindings hf hb
  · obtain ⟨x, hx, rfl⟩ := List.mem_map.1 hname
    exact ⟨(hs.bindings hf hx).1, hvalue⟩

/-- As a further one. -/
theorem rebinds_append (hs : s.Framed c) (hf : s.heap.get a = some f.obj) (hvalue : s.heap.Holds value)
    (hname : mlIsSym name = true) (hassign : assign name value f.bindings = none) (hroom : f.bindings.length < k) :
    s.heap.Rebinds a f name value (f.bindings ++ [(name, value)]) k := by
  have hfree := assign_eq_none.1 hassign
  have hframe := hs.frames a f hf
  have hnames : ((f.bindings ++ [(name, value)]).map Prod.fst).Nodup := by
    rw [List.map_append, List.nodup_append]
    refine ⟨hframe.names, by simp, ?_⟩
    rintro n hn m hm rfl
    cases List.mem_singleton.1 hm
    exact hfree hn
  refine ⟨⟨hnames, by simpa using Nat.succ_le_of_lt hroom, hframe.older⟩, ?_, bindingMap_append hfree⟩
  intro b hb
  rcases List.mem_append.1 hb with hb | hb
  · exact hs.bindings hf hb
  · cases List.mem_singleton.1 hb
    refine ⟨?_, hvalue⟩
    rintro x rfl
    cases hname

theorem State.Framed.rebound (hs : s.Framed c) (hf : s.heap.get a = some f.obj)
    (hb : s.heap.Rebinds a f name value bs k) :
    ({ s with heap := s.heap.set a (.env f.parent bs k) } : State).Framed c := hs.set hf hb.sound hb.held

/-- Two arrays are asked for, and the frame is left alone until both are there. -/
theorem envGrow_wp {n : Nat} (hk : n ≤ k) : wp Mode.fully (envGrow c k) s
    (fun k' t => n < k' ∧ t = { s with allocs := t.allocs })
    (fun e t => e = .errNomem ∧ (∃ n size, c.alloc n size = false) ∧ t = { s with allocs := t.allocs }) := by
  have hmore : k < if k = 0 then 8 else k * 2 := by
    split <;> omega
  have hraw : ∀ u, u = { s with allocs := u.allocs } →
      wp Mode.fully (rawAllocOrFail c ((if k = 0 then 8 else k * 2) * 8)) u
        (fun _ t => t = { s with allocs := t.allocs })
        (fun e t => e = .errNomem ∧ (∃ n size, c.alloc n size = false) ∧ t = { s with allocs := t.allocs }) := by
    intro u hu
    apply wp_mono rawAllocOrFail_wp
    · rintro _ t ht
      rw [ht, hu]
    · rintro e t ⟨rfl, hrefused | ⟨m, hrefused⟩, ht⟩
      · omega
      · refine ⟨rfl, ⟨m, _, hrefused⟩, ?_⟩
        rw [ht, hu]
  apply wp_seq (hraw s rfl)
  intro _ u hu
  apply wp_seq (hraw u hu)
  intro _ t ht
  exact wp_pure ⟨Nat.lt_of_le_of_lt hk hmore, ht⟩

/-- In a frame that is there, a definition rebinds the name, or finds no memory for a new one. -/
theorem mlEnvDefine_frame (hs : s.Framed c) (hf : s.heap.get a = some f.obj) (hname : mlIsSym name = true)
    (hvalue : s.heap.Holds value) :
    wp Mode.fully (mlEnvDefine c (.obj a) name value) s
      (fun _ t => ∃ bs k, s.heap.Rebinds a f name value bs k ∧
        t = { s with heap := s.heap.set a (.env f.parent bs k), allocs := t.allocs })
      (fun e t => e = .errNomem ∧ (∃ n size, c.alloc n size = false) ∧ name ∉ f.bindings.map Prod.fst ∧
        t = { s with allocs := t.allocs }) := by
  have hhas : s.heap.Has (.obj a) f.obj := ⟨a, rfl, hf⟩
  have hwrite : ∀ bs k u, s.heap.Rebinds a f name value bs k → u = { s with allocs := u.allocs } →
      wp Mode.fully (writeObj (.obj a) (.env f.parent bs k)) u
        (fun _ t => ∃ bs k, s.heap.Rebinds a f name value bs k ∧
          t = { s with heap := s.heap.set a (.env f.parent bs k), allocs := t.allocs })
        (fun e t => e = .errNomem ∧ (∃ n size, c.alloc n size = false) ∧ name ∉ f.bindings.map Prod.fst ∧
          t = { s with allocs := t.allocs }) := by
    intro bs k u hb hu
    apply wp_mono (writeObj_wp (fun _ => ⟨a, rfl⟩) fun _ _ => trivial) _ fun _ _ h => h
    rintro _ t ⟨_, ⟨⟩, rfl⟩
    refine ⟨bs, k, hb, ?_⟩
    rw [hu]
  have henv : s.heap.Holds (.obj a) := by
    rintro _ ⟨⟩ -
    exact ⟨_, hf⟩
  apply wp_seq (mlIsEnv_wp fun _ => henv)
  rintro isEnv t ⟨rfl, hisEnv⟩
  rw [hisEnv.2 ⟨f, hhas⟩, hname]
  apply wp_seq (envFields_wp fun _ => ⟨f, hhas⟩)
  rintro g t ⟨rfl, hg⟩
  cases Frame.obj_inj (Heap.Has.unique hhas hg)
  split
  · rename_i bs hassign
    exact hwrite bs _ t (rebinds_assign hs hf hvalue hassign) rfl
  · rename_i hassign
    have hfree := assign_eq_none.1 hassign
    have hroom := (hs.frames a f hf).room
    have happend : ∀ k u, f.bindings.length < k ∧ u = { t with allocs := u.allocs } →
        wp Mode.fully (writeObj (.obj a) (.env f.parent (f.bindings ++ [(name, value)]) k)) u _ _ :=
      fun k u hu => hwrite _ k u (rebinds_append hs hf hvalue hname hassign hu.1) hu.2
    dsimp only
    split
    · rename_i hfull
      apply wp_bind
      apply wp_mono (envGrow_wp (Nat.le_of_eq hfull)) happend
      rintro e u ⟨rfl, hrefused, hu⟩
      exact ⟨rfl, hrefused, hfree, hu⟩
    · rename_i hspace
      exact wp_bind (wp_pure (happend _ _ ⟨by omega, rfl⟩))

theorem define_steps {env : Val} (hs : s.Framed c) (hready : EnvOp.Ready c s (.define env name value)) :
    Steps c s (.define env name value) := by
  obtain ⟨henv, hvalue⟩ := hready
  have hdefine : wp Mode.fully (mlEnvDefine c env name value) s
      (fun _ t => s.Steps c (.define env name value) (.ok none) t)
      (fun e t => s.Steps c (.define env name value) (.error e) t) := by
    by_cases hvalid : (∃ f : Frame, s.heap.Has env f.obj) ∧ mlIsSym name = true
    · obtain ⟨⟨f, a, rfl, hf⟩, hname⟩ := hvalid
      have hscope := Heap.scopes_frame ⟨a, rfl, hf⟩
      apply wp_mono (mlEnvDefine_frame hs hf hname hvalue)
      · rintro _ t ⟨bs, k, hb, ht⟩
        rw [ht]
        refine ⟨(hs.rebound hf hb).of_eq rfl rfl, ?_, rfl⟩
        show EnvStep _ _ _ _ (s.heap.set a _).scopes
        rw [Heap.scopes_set hf hb.map]
        exact .define hscope hname
      · rintro e t ⟨rfl, -, hfree, ht⟩
        rw [ht]
        exact ⟨hs.of_eq rfl rfl, .defineFails hscope hname (mem_bindingMap.not.2 hfree), rfl⟩
    · apply wp_seq (mlIsEnv_wp fun _ => henv)
      rintro isEnv t ⟨rfl, hisEnv⟩
      have hinvalid : t.heap.scopes env = none ∨ mlIsSym name = false := by
        by_cases hname : mlIsSym name = true
        · exact .inl (Heap.scopes_none fun hf => hvalid ⟨hf, hname⟩)
        · exact .inr (by simpa using hname)
      apply wp_ite
      · exact fun _ => wp_fail ⟨hs, .defineInvalid hinvalid, rfl⟩
      · intro hok
        refine absurd ⟨hisEnv.1 ?_, ?_⟩ hvalid <;> simp_all
  apply wp_bind
  apply wp_mono hdefine _ fun _ _ h => h
  exact fun _ t ht => wp_pure ht

/-! ## Walks up the chain -/

/-- A chain goes from younger frames to older ones, so this many steps are enough. -/
def Within (n : Nat) (v : Val) : Prop := 0 < n ∧ ∀ a, v = .obj a → a < n

theorem within_walkBound (hs : s.heap.Holds v) : Within (s.heap.next + 1) v := by
  refine ⟨Nat.succ_pos _, ?_⟩
  rintro a rfl
  by_cases ha : a = 0
  · omega
  · obtain ⟨o, ho⟩ := hs a rfl ha
    exact Nat.lt_succ_of_lt (Heap.lt_next_of_get ho).2

theorem Within.parent {n : Nat} (hs : s.Framed c) (hw : Within (n + 1) (.obj a)) (hf : s.heap.get a = some f.obj) :
    Within n f.parent := by
  have ha := hw.2 a rfl
  have hpos := (Heap.lt_next_of_get hf).1
  refine ⟨by omega, ?_⟩
  intro b hb
  have := (hs.frames a f hf).older b hb
  omega

theorem State.Framed.parent (hs : s.Framed c) (hf : s.heap.get a = some f.obj) : s.heap.Holds f.parent :=
  hs.closed a _ hf _ (by simp [Frame.obj, Obj.refs])

theorem envSetLoop_framed {n : Nat} {cur : Val} (hs : s.Framed c) (hcur : s.heap.Holds cur)
    (hvalue : s.heap.Holds value)
    (hw : Within n cur) :
    wp Mode.fully (envSetLoop name value n cur) s
      (fun _ t => t.Framed c ∧ t.gcProtect = s.gcProtect ∧
        ∃ b x, s.heap.scopes.Binds name cur b x ∧ t.heap.scopes = s.heap.scopes.assign b name value)
      (fun e t => e = .errUnbound ∧ t = s ∧ s.heap.scopes.Unbound name cur) := by
  induction n generalizing cur with
  | zero => exact absurd hw.1 (Nat.lt_irrefl 0)
  | succ n ih =>
    apply wp_seq (mlIsEnv_wp fun _ => hcur)
    rintro isEnv t ⟨rfl, hisEnv⟩
    apply wp_ite
    · intro henv
      obtain ⟨f, a, rfl, hf⟩ := hisEnv.1 henv
      have hscope := Heap.scopes_frame ⟨a, rfl, hf⟩
      apply wp_seq (envFields_wp fun _ => ⟨f, a, rfl, hf⟩)
      rintro g t ⟨rfl, hg⟩
      cases Frame.obj_inj (Heap.Has.unique ⟨a, rfl, hf⟩ hg)
      split
      · rename_i bs hassign
        have hb := rebinds_assign hs hf hvalue hassign
        apply wp_mono (writeObj_wp (fun _ => ⟨a, rfl⟩) fun _ _ => trivial) _ fun _ _ h => h
        rintro _ u ⟨_, ⟨⟩, rfl⟩
        have hbound : name ∈ bindingMap f.bindings := by
          by_contra hfree
          rw [mem_bindingMap, ← assign_eq_none, hassign] at hfree
          cases hfree
        obtain ⟨x, hx⟩ := Finmap.mem_iff.1 hbound
        exact ⟨hs.rebound hf hb, rfl, .obj a, x, .here hscope hx, Heap.scopes_set hf hb.map⟩
      · rename_i hassign
        have hfree := mem_bindingMap.not.2 (assign_eq_none.1 hassign)
        apply wp_mono (ih (hs.parent hf) (hw.parent hs hf))
        · rintro _ u ⟨hu, hprotect, b, x, hb, hscopes⟩
          exact ⟨hu, hprotect, b, x, .up hscope hfree hb, hscopes⟩
        · rintro e u ⟨rfl, rfl, hunbound⟩
          exact ⟨rfl, rfl, .up hscope hfree hunbound⟩
    · intro hother
      exact wp_fail ⟨rfl, rfl, .stop (Heap.scopes_none fun hf => hother (hisEnv.2 hf))⟩

theorem set_steps {env : Val} (hs : s.Framed c) (hready : EnvOp.Ready c s (.set env name value)) :
    Steps c s (.set env name value) := by
  have hset : wp Mode.fully (mlEnvSet env name value) s (fun _ t => s.Steps c (.set env name value) (.ok none) t)
      (fun e t => s.Steps c (.set env name value) (.error e) t) := by
    apply wp_ite
    · intro hname
      apply wp_bind (wp_gets _)
      apply wp_mono (envSetLoop_framed hs hready.1 hready.2 (within_walkBound hready.1))
      · rintro _ t ⟨ht, hprotect, b, x, hb, hscopes⟩
        exact ⟨ht, hscopes ▸ .set hname hb, hprotect⟩
      · rintro e t ⟨rfl, rfl, hunbound⟩
        exact ⟨hs, .setUnbound hname hunbound, rfl⟩
    · exact fun hname => wp_fail ⟨hs, .setInvalid (by simpa using hname), rfl⟩
  apply wp_bind
  apply wp_mono hset _ fun _ _ h => h
  exact fun _ t ht => wp_pure ht

theorem envLookupLoop_framed {n : Nat} {cur : Val} (hs : s.Framed c) (hcur : s.heap.Holds cur) (hw : Within n cur) :
    wp Mode.fully (envLookupLoop name n cur) s (fun x t => t = s ∧ ∃ b, s.heap.scopes.Binds name cur b x)
      (fun e t => e = .errUnbound ∧ t = s ∧ s.heap.scopes.Unbound name cur) := by
  induction n generalizing cur with
  | zero => exact absurd hw.1 (Nat.lt_irrefl 0)
  | succ n ih =>
    apply wp_seq (mlIsEnv_wp fun _ => hcur)
    rintro isEnv t ⟨rfl, hisEnv⟩
    apply wp_ite
    · intro henv
      obtain ⟨f, a, rfl, hf⟩ := hisEnv.1 henv
      have hscope := Heap.scopes_frame ⟨a, rfl, hf⟩
      apply wp_seq (envFields_wp fun _ => ⟨f, a, rfl, hf⟩)
      rintro g t ⟨rfl, hg⟩
      cases Frame.obj_inj (Heap.Has.unique ⟨a, rfl, hf⟩ hg)
      have hlookup : (bindingMap f.bindings).lookup name = _ := lookup_bindingMap
      split
      · rename_i p hp
        rw [hp] at hlookup
        exact wp_pure ⟨rfl, .obj a, .here hscope hlookup⟩
      · rename_i hnone
        rw [hnone] at hlookup
        have hfree := Finmap.lookup_eq_none.1 hlookup
        apply wp_mono (ih (hs.parent hf) (hw.parent hs hf))
        · rintro x u ⟨rfl, b, hb⟩
          exact ⟨rfl, b, .up hscope hfree hb⟩
        · rintro e u ⟨rfl, rfl, hunbound⟩
          exact ⟨rfl, rfl, .up hscope hfree hunbound⟩
    · intro hother
      exact wp_fail ⟨rfl, rfl, .stop (Heap.scopes_none fun hf => hother (hisEnv.2 hf))⟩

theorem lookup_steps {env : Val} (hs : s.Framed c) (hready : EnvOp.Ready c s (.lookup env name)) :
    Steps c s (.lookup env name) := by
  have hlookup : wp Mode.fully (mlEnvLookup env name) s (fun x t => s.Steps c (.lookup env name) (.ok (some x)) t)
      (fun e t => s.Steps c (.lookup env name) (.error e) t) := by
    apply wp_ite
    · intro hname
      apply wp_bind (wp_gets _)
      apply wp_mono (envLookupLoop_framed hs hready (within_walkBound hready))
      · rintro x t ⟨rfl, b, hb⟩
        exact ⟨hs, .lookup hname hb, rfl⟩
      · rintro e t ⟨rfl, rfl, hunbound⟩
        exact ⟨hs, .lookupUnbound hname hunbound, rfl⟩
    · exact fun hname => wp_fail ⟨hs, .lookupInvalid (by simpa using hname), rfl⟩
  apply wp_bind
  apply wp_mono hlookup _ fun _ _ h => h
  exact fun x t ht => wp_pure ht

theorem envOp_steps {op : EnvOp} (hs : s.Framed c) (hready : op.Ready c s) : Steps c s op := by
  cases op with
  | alloc parent => exact alloc_steps hs hready
  | define env name value => exact define_steps hs hready
  | set env name value => exact set_steps hs hready
  | lookup env name => exact lookup_steps hs hready

/-! ## Sequences of calls -/

/-- Calls made one after another, each with what it returns. -/
inductive EnvRun (c : Config) : State → List EnvOp → List (Except Status (Option Val)) → State → Prop
  | nil {s : State} : EnvRun c s [] [] s
  | cons {s t : State} {op : EnvOp} {ops : List EnvOp} {r : Except Status (Option Val)}
      {rs : List (Except Status (Option Val))} :
      op.Ready c s → (op.run c s).Ends r → EnvRun c (op.run c s).state ops rs t → EnvRun c s (op :: ops) (r :: rs) t

/-- The same on scopes. -/
inductive EnvSteps (roots : List Val) : Scopes Val Val → List EnvOp → List (Except Status (Option Val)) →
    Scopes Val Val → Prop
  | nil {S : Scopes Val Val} : EnvSteps roots S [] [] S
  | cons {S T U : Scopes Val Val} {op : EnvOp} {ops : List EnvOp} {r : Except Status (Option Val)}
      {rs : List (Except Status (Option Val))} :
      EnvStep roots S op r T → EnvSteps roots T ops rs U → EnvSteps roots S (op :: ops) (r :: rs) U

/-- One call. -/
theorem envOp_ends {op : EnvOp} (hs : s.Framed c) (hready : op.Ready c s) :
    ∃ r, (op.run c s).Ends r ∧ s.Steps c op r (op.run c s).state := by
  obtain ⟨r, hr, hok, herror⟩ := ends_of_wp_fully (envOp_steps hs hready)
  cases r with
  | ok r => exact ⟨.ok r, hr, hok r rfl⟩
  | error e => exact ⟨.error e, hr, herror e rfl⟩

theorem EnvRun.steps {ops : List EnvOp} {rs : List (Except Status (Option Val))} (hrun : EnvRun c s ops rs t)
    (hs : s.Framed c) :
    EnvSteps (c.toplevelEnv :: s.gcProtect) s.heap.scopes ops rs t.heap.scopes ∧ t.Framed c := by
  induction hrun with
  | nil => exact ⟨.nil, hs⟩
  | cons hready hends _ ih =>
    obtain ⟨r, hr, hstep⟩ := envOp_ends hs hready
    cases hends.unique hr
    obtain ⟨hsteps, ht⟩ := ih hstep.framed
    rw [hstep.protect] at hsteps
    exact ⟨.cons hstep.step hsteps, ht⟩

/-- Whatever calls are made, they return what scopes say and do to the frames what is done
to the scopes. Frames stay sound, and a call on frames that are there always returns. -/
theorem envs_are_scopes {ops : List EnvOp} {rs : List (Except Status (Option Val))} (hs : s.Framed c)
    (hrun : EnvRun c s ops rs t) :
    EnvSteps (c.toplevelEnv :: s.gcProtect) s.heap.scopes ops rs t.heap.scopes ∧
    (∀ a (f : Frame), t.heap.get a = some f.obj → (f.bindings.map Prod.fst).Nodup ∧ f.bindings.length ≤ f.capacity) ∧
    ∀ op : EnvOp, op.Ready c t → ∃ r, (op.run c t).Ends r := by
  obtain ⟨hsteps, ht⟩ := hrun.steps hs
  refine ⟨hsteps, fun a f hf => ⟨(ht.frames a f hf).names, (ht.frames a f hf).room⟩, fun op hready => ?_⟩
  obtain ⟨r, hr, -⟩ := envOp_ends ht hready
  exact ⟨r, hr⟩

end Frames

/-! ## A new interpreter -/

theorem State.created_framed : State.created.Framed .created := by
  have hget : ∀ a o, State.created.heap.get a = some o → o = .env mvNil [] 0 := by
    intro a o ho
    rw [show State.created.heap = Heap.empty.alloc (.env mvNil [] 0) from rfl, Heap.get_alloc] at ho
    split at ho
    · exact (Option.some.inj ho).symm
    · cases ho
  refine ⟨by decide, ?_, ?_, ?_⟩
  · intro a o ho v hv
    rw [hget a o ho] at hv
    cases List.mem_singleton.1 hv
    exact nofun
  · intro v hv
    cases List.mem_singleton.1 hv
    rintro a ⟨⟩ -
    exact ⟨_, rfl⟩
  · intro a f hf
    cases f
    cases hget a _ hf
    exact ⟨.nil, Nat.le_refl _, nofun⟩

/-- A variable defined in the top-level frame is found from a frame inside it, and assigned
from there. -/
theorem envs_are_scopes_inner : ∃ S, EnvSteps [.obj 1] State.created.heap.scopes
    [.define (.obj 1) (.sym 13) mvTrue, .alloc (.obj 1), .lookup (.obj 2) (.sym 13), .set (.obj 2) (.sym 13) mvFalse,
      .lookup (.obj 1) (.sym 13)]
    [.ok none, .ok (some (.obj 2)), .ok (some mvTrue), .ok none, .ok (some mvFalse)] S := by
  have hframe : ∀ {h : Heap} {a : Nat} {o : Obj}, h.get a = some o → h.Holds (.obj a) := by
    rintro h a o ho _ ⟨⟩ -
    exact ⟨o, ho⟩
  have hrun : ∃ t, EnvRun .created .created
      [.define (.obj 1) (.sym 13) mvTrue, .alloc (.obj 1), .lookup (.obj 2) (.sym 13), .set (.obj 2) (.sym 13) mvFalse,
        .lookup (.obj 1) (.sym 13)]
      [.ok none, .ok (some (.obj 2)), .ok (some mvTrue), .ok none, .ok (some mvFalse)] t := by
    exact ⟨_, .cons ⟨hframe rfl, nofun⟩ rfl (.cons ⟨hframe rfl, fun hdue => absurd hdue (by decide +kernel)⟩ rfl
      (.cons (hframe rfl) rfl (.cons ⟨hframe rfl, nofun⟩ rfl (.cons (hframe rfl) rfl .nil))))⟩
  obtain ⟨t, hrun⟩ := hrun
  exact ⟨_, (envs_are_scopes State.created_framed hrun).1⟩

end Microlisp
