import Microlisp.Tables
/-!
# What the small operations do

One rule for each operation on objects, memory and the protect stack, for runs
judged in any mode: what is asked of the state counts only where a run must not
get stuck.
-/
namespace Microlisp

open Prog

/-- `v` is a handle of the object `o`. -/
def Heap.Has (h : Heap) (v : Val) (o : Obj) : Prop := ∃ a, v = .obj a ∧ h.get a = some o

theorem Heap.Has.unique {h : Heap} {v : Val} {o o' : Obj} (ho : h.Has v o) (ho' : h.Has v o') : o = o' := by
  obtain ⟨a, rfl, ha⟩ := ho
  obtain ⟨_, ⟨⟩, ha'⟩ := ho'
  exact Option.some.inj (ha.symm.trans ha')

/-- If `v` is a handle at all, its object is there. -/
def Heap.Holds (h : Heap) (v : Val) : Prop := ∀ a, v = .obj a → a ≠ 0 → ∃ o, h.get a = some o

variable {M : Mode Event} {c : Config} {s : State} {v : Val} {E : Status → State → Prop}

/-! ## Objects -/

theorem readObj_wp {a : Nat} (h : M.safe → ∃ o, s.heap.get a = some o) :
    wp M (readObj a) s (fun o t => t = s ∧ s.heap.get a = some o) E := by
  refine wp_bind (wp_gets ?_)
  cases ho : s.heap.get a with
  | some o => exact wp_pure ⟨rfl, rfl⟩
  | none =>
    refine wp_stuck (fun hsafe => ?_)
    obtain ⟨o, ho'⟩ := h hsafe
    simp [ho] at ho'

theorem asObj_wp (h : M.safe → ∃ o, s.heap.Has v o) :
    wp M (asObj v) s (fun o t => t = s ∧ s.heap.Has v o) E := by
  cases v with
  | obj a =>
    refine wp_mono (readObj_wp (fun hs => ?_)) (fun o t ht => ⟨ht.1, a, rfl, ht.2⟩) (fun _ _ h => h)
    obtain ⟨o, _, ⟨⟩, ho⟩ := h hs
    exact ⟨o, ho⟩
  | _ =>
    refine wp_stuck (fun hs => ?_)
    obtain ⟨_, _, h, _⟩ := h hs
    cases h

/-- A field read behind a cast: `f` picks the field, if the object has the kind the cast
assumes. -/
theorem field_wp {α : Type} {k : Obj → ML α} {f : Obj → Option α}
    (hk : ∀ o, k o = match f o with | some a => pure a | none => stuck)
    (h : M.safe → ∃ o a, s.heap.Has v o ∧ f o = some a) :
    wp M (asObj v >>= k) s (fun a t => t = s ∧ ∃ o, s.heap.Has v o ∧ f o = some a) E := by
  refine wp_bind (wp_mono (asObj_wp (fun hs => ?_)) ?_ (fun _ _ h => h))
  · obtain ⟨o, _, ho, _⟩ := h hs
    exact ⟨o, ho⟩
  · rintro o t ⟨rfl, ho⟩
    rw [hk]
    cases ha : f o with
    | some a => exact wp_pure ⟨rfl, o, ho, ha⟩
    | none =>
      refine wp_stuck (fun hs => ?_)
      obtain ⟨o', a, ho', ha'⟩ := h hs
      rw [ho.unique ho', ha'] at ha
      cases ha

/-! What the field reads pick. -/

def Obj.car? : Obj → Option Val
  | .pair a _ => some a
  | _ => none

def Obj.cdr? : Obj → Option Val
  | .pair _ d => some d
  | _ => none

def Obj.bytes? : Obj → Option Bytes
  | .string b => some b
  | _ => none

def Obj.closure? : Obj → Option Closure
  | .closure e p b va n => some ⟨e, p, b, va, n⟩
  | _ => none

def Obj.prim? : Obj → Option Primitive
  | .prim n fn mn mx => some ⟨n, fn, mn, mx⟩
  | _ => none

def Obj.frame? : Obj → Option Frame
  | .env p b k => some ⟨p, b, k⟩
  | _ => none

theorem car_wp (h : M.safe → ∃ a d, s.heap.Has v (.pair a d)) :
    wp M (car v) s (fun a t => t = s ∧ ∃ d, s.heap.Has v (.pair a d)) E := by
  refine wp_mono (field_wp (f := Obj.car?) (fun o => by cases o <;> rfl) ?_) ?_
    (fun _ _ h => h)
  · intro hs
    obtain ⟨a, d, ho⟩ := h hs
    exact ⟨_, a, ho, rfl⟩
  · rintro a t ⟨rfl, o, ho, hf⟩
    cases o <;> cases hf
    exact ⟨rfl, _, ho⟩

theorem cdr_wp (h : M.safe → ∃ a d, s.heap.Has v (.pair a d)) :
    wp M (cdr v) s (fun d t => t = s ∧ ∃ a, s.heap.Has v (.pair a d)) E := by
  refine wp_mono (field_wp (f := Obj.cdr?) (fun o => by cases o <;> rfl) ?_) ?_
    (fun _ _ h => h)
  · intro hs
    obtain ⟨a, d, ho⟩ := h hs
    exact ⟨_, d, ho, rfl⟩
  · rintro d t ⟨rfl, o, ho, hf⟩
    cases o <;> cases hf
    exact ⟨rfl, _, ho⟩

theorem stringBytes_wp (h : M.safe → ∃ b, s.heap.Has v (.string b)) :
    wp M (stringBytes v) s (fun b t => t = s ∧ s.heap.Has v (.string b)) E := by
  refine wp_mono (field_wp (f := Obj.bytes?) (fun o => by cases o <;> rfl) ?_) ?_
    (fun _ _ h => h)
  · intro hs
    obtain ⟨b, ho⟩ := h hs
    exact ⟨_, b, ho, rfl⟩
  · rintro b t ⟨rfl, o, ho, hf⟩
    cases o <;> cases hf
    exact ⟨rfl, ho⟩

def Closure.obj (cl : Closure) : Obj := .closure cl.env cl.params cl.body cl.variadic cl.arityMin
def Primitive.obj (p : Primitive) : Obj := .prim p.name p.fn p.arityMin p.arityMax
def Frame.obj (f : Frame) : Obj := .env f.parent f.bindings f.capacity

theorem closureFields_wp (h : M.safe → ∃ cl : Closure, s.heap.Has v cl.obj) :
    wp M (closureFields v) s (fun cl t => t = s ∧ s.heap.Has v cl.obj) E := by
  refine wp_mono (field_wp (f := Obj.closure?)
    (fun o => by cases o <;> rfl) ?_) ?_ (fun _ _ h => h)
  · intro hs
    obtain ⟨cl, ho⟩ := h hs
    exact ⟨_, cl, ho, rfl⟩
  · rintro b t ⟨rfl, o, ho, hf⟩
    cases o <;> cases hf
    exact ⟨rfl, ho⟩

theorem primFields_wp (h : M.safe → ∃ p : Primitive, s.heap.Has v p.obj) :
    wp M (primFields v) s (fun p t => t = s ∧ s.heap.Has v p.obj) E := by
  refine wp_mono (field_wp (f := Obj.prim?)
    (fun o => by cases o <;> rfl) ?_) ?_ (fun _ _ h => h)
  · intro hs
    obtain ⟨p, ho⟩ := h hs
    exact ⟨_, p, ho, rfl⟩
  · rintro b t ⟨rfl, o, ho, hf⟩
    cases o <;> cases hf
    exact ⟨rfl, ho⟩

theorem envFields_wp (h : M.safe → ∃ f : Frame, s.heap.Has v f.obj) :
    wp M (envFields v) s (fun f t => t = s ∧ s.heap.Has v f.obj) E := by
  refine wp_mono (field_wp (f := Obj.frame?)
    (fun o => by cases o <;> rfl) ?_) ?_ (fun _ _ h => h)
  · intro hs
    obtain ⟨f, ho⟩ := h hs
    exact ⟨_, f, ho, rfl⟩
  · rintro b t ⟨rfl, o, ho, hf⟩
    cases o <;> cases hf
    exact ⟨rfl, ho⟩

theorem Heap.get_zero {h : Heap} : h.get 0 = none := by
  cases ho : h.get 0 with
  | none => rfl
  | some o => exact absurd (Heap.lt_next_of_get ho).1 (Nat.lt_irrefl 0)

theorem isObjType_wp {p : Obj → Bool} (h : M.safe → s.heap.Holds v) :
    wp M (isObjType p v) s (fun b t => t = s ∧ (b = true ↔ ∃ o, s.heap.Has v o ∧ p o = true)) E := by
  unfold isObjType
  split
  · refine wp_pure ⟨rfl, by simp, ?_⟩
    rintro ⟨o, ⟨_, ⟨⟩, ho⟩, _⟩
    rw [Heap.get_zero] at ho
    cases ho
  · rename_i a ha
    refine wp_bind (wp_mono (readObj_wp (fun hs => h hs a rfl (fun h0 => ha (h0 ▸ rfl)))) ?_ (fun _ _ h => h))
    rintro o t ⟨rfl, ho⟩
    refine wp_pure ⟨rfl, fun hp => ⟨o, ⟨a, rfl, ho⟩, hp⟩, ?_⟩
    rintro ⟨o', ho', hp⟩
    rwa [Heap.Has.unique ⟨a, rfl, ho⟩ ho']
  · rename_i hv
    refine wp_pure ⟨rfl, by simp, ?_⟩
    rintro ⟨o, ⟨a, rfl, _⟩, _⟩
    exact absurd rfl (hv a)

/-- A test for the objects that `mk` builds. -/
theorem isKind_wp {α : Type} {mk : α → Obj} {p : Obj → Bool} (hp : ∀ o, p o = true ↔ ∃ x, o = mk x)
    (h : M.safe → s.heap.Holds v) :
    wp M (isObjType p v) s (fun b t => t = s ∧ (b = true ↔ ∃ x, s.heap.Has v (mk x))) E := by
  refine wp_mono (isObjType_wp h) (fun b t ht => ⟨ht.1, ht.2.trans ?_⟩) (fun _ _ h => h)
  constructor
  · rintro ⟨o, ho, hpo⟩
    obtain ⟨x, rfl⟩ := (hp o).1 hpo
    exact ⟨x, ho⟩
  · rintro ⟨x, ho⟩
    exact ⟨mk x, ho, (hp _).2 ⟨x, rfl⟩⟩

theorem mlIsPair_wp (h : M.safe → s.heap.Holds v) :
    wp M (mlIsPair v) s (fun b t => t = s ∧ (b = true ↔ ∃ x : Val × Val, s.heap.Has v (.pair x.1 x.2))) E :=
  isKind_wp (fun o => by cases o <;> simp [Obj.isPair]) h

theorem mlIsString_wp (h : M.safe → s.heap.Holds v) :
    wp M (mlIsString v) s (fun b t => t = s ∧ (b = true ↔ ∃ x, s.heap.Has v (.string x))) E :=
  isKind_wp (fun o => by cases o <;> simp [Obj.isString]) h

theorem Obj.isClosure_iff {o : Obj} : o.isClosure = true ↔ ∃ cl : Closure, o = cl.obj := by
  cases o with
  | closure e p b va n => exact ⟨fun _ => ⟨⟨e, p, b, va, n⟩, rfl⟩, fun _ => rfl⟩
  | _ => simp [Obj.isClosure, Closure.obj]

theorem Obj.isPrim_iff {o : Obj} : o.isPrim = true ↔ ∃ p : Primitive, o = p.obj := by
  cases o with
  | prim n fn mn mx => exact ⟨fun _ => ⟨⟨n, fn, mn, mx⟩, rfl⟩, fun _ => rfl⟩
  | _ => simp [Obj.isPrim, Primitive.obj]

theorem Obj.isEnv_iff {o : Obj} : o.isEnv = true ↔ ∃ f : Frame, o = f.obj := by
  cases o with
  | env p b k => exact ⟨fun _ => ⟨⟨p, b, k⟩, rfl⟩, fun _ => rfl⟩
  | _ => simp [Obj.isEnv, Frame.obj]

theorem mlIsClosure_wp (h : M.safe → s.heap.Holds v) :
    wp M (mlIsClosure v) s (fun b t => t = s ∧ (b = true ↔ ∃ cl : Closure, s.heap.Has v cl.obj)) E :=
  isKind_wp (fun _ => Obj.isClosure_iff) h

theorem mlIsPrim_wp (h : M.safe → s.heap.Holds v) :
    wp M (mlIsPrim v) s (fun b t => t = s ∧ (b = true ↔ ∃ p : Primitive, s.heap.Has v p.obj)) E :=
  isKind_wp (fun _ => Obj.isPrim_iff) h

theorem mlIsEnv_wp (h : M.safe → s.heap.Holds v) :
    wp M (mlIsEnv v) s (fun b t => t = s ∧ (b = true ↔ ∃ f : Frame, s.heap.Has v f.obj)) E :=
  isKind_wp (fun _ => Obj.isEnv_iff) h

/-! ## Memory -/

theorem rawAllocOrFail_wp {size : Nat} :
    wp M (rawAllocOrFail c size) s (fun _ t => t = { s with allocs := t.allocs })
      (fun e t => e = .errNomem ∧ (size = 0 ∨ ∃ n, c.alloc n size = false) ∧ t = { s with allocs := t.allocs }) := by
  unfold rawAllocOrFail mlRawAlloc
  split
  · rename_i h
    exact wp_bind (wp_pure (wp_fail ⟨rfl, .inl h, rfl⟩))
  · refine wp_bind (wp_bind (wp_gets (wp_bind (wp_modify (wp_pure ?_)))))
    split
    · exact wp_pure rfl
    · rename_i h
      exact wp_fail ⟨rfl, .inr ⟨_, by simpa using h⟩, rfl⟩

/-- A symbol is interned at the end of the table, or there is no room for it. -/
theorem mlSymIntern_adds {name : Bytes} :
    wp M (mlSymIntern c name) s
      (fun v t => (∃ i, v = mlMakeSym i) ∧ s.symtab.entries <+: t.symtab.entries ∧
        t = { s with symtab := t.symtab, allocs := t.allocs })
      (fun e t => e = .errNomem ∧
        t = { s with symtab := ⟨s.symtab.entries, t.symtab.capacity⟩, allocs := t.allocs }) := by
  have hadd : ∀ u : State, u = { s with symtab := ⟨s.symtab.entries, u.symtab.capacity⟩, allocs := u.allocs } →
      wp M (if s.symtab.entries.length > 0x0FFFFFFF then fail .errNomem else do
        rawAllocOrFail c (name.length + 1)
        modify fun s => { s with symtab := ⟨s.symtab.entries ++ [name], s.symtab.capacity⟩ }
        pure (mlMakeSym s.symtab.entries.length) : ML Val) u
        (fun v t => (∃ i, v = mlMakeSym i) ∧ s.symtab.entries <+: t.symtab.entries ∧
          t = { s with symtab := t.symtab, allocs := t.allocs })
        (fun e t => e = .errNomem ∧
          t = { s with symtab := ⟨s.symtab.entries, t.symtab.capacity⟩, allocs := t.allocs }) := by
    intro u hu
    apply wp_ite (fun _ => wp_fail ⟨rfl, hu⟩)
    intro _
    apply wp_bind
    apply wp_mono rawAllocOrFail_wp
    · intro _ t ht
      apply wp_bind
      apply wp_modify
      apply wp_pure
      rw [ht, hu]
      exact ⟨⟨_, rfl⟩, List.prefix_append _ _, rfl⟩
    · rintro e t ⟨he, -, ht⟩
      rw [ht]
      exact ⟨he, by rw [hu]⟩
  apply wp_bind
  apply wp_gets
  cases s.symtab.entries.findIdx? (fun e => e == name) with
  | some i => exact wp_pure ⟨⟨i, rfl⟩, List.prefix_refl _, rfl⟩
  | none =>
    apply wp_bind
    apply wp_gets
    apply wp_ite
    · intro _
      apply wp_bind
      apply wp_mono rawAllocOrFail_wp
      · intro _ t ht
        apply wp_bind
        apply wp_modify
        apply hadd
        rw [ht]
      · rintro e t ⟨he, -, ht⟩
        rw [ht]
        exact ⟨he, rfl⟩
    · exact fun _ => hadd s rfl

theorem mlGcProtect_wp :
    wp M (mlGcProtect c v) s
      (fun _ t => t = { s with gcProtect := s.gcProtect ++ [v], gcProtectCap := t.gcProtectCap, allocs := t.allocs })
      (fun e t => e = .errNomem ∧ (∃ n size, c.alloc n size = false) ∧ t = { s with allocs := t.allocs }) := by
  refine wp_bind (wp_gets (wp_bind (wp_gets ?_)))
  dsimp only
  split
  · refine wp_bind (wp_mono rawAllocOrFail_wp ?_ ?_)
    · intro _ t ht
      refine wp_bind (wp_modify (wp_modify ?_))
      rw [ht]
    · rintro e t ⟨rfl, hsize, ht⟩
      refine ⟨rfl, ?_, ht⟩
      rcases hsize with hsize | ⟨n, hn⟩
      · split at hsize <;> omega
      · exact ⟨n, _, hn⟩
  · exact wp_modify rfl

theorem noteHeap_wp (hg : M.good (.heap s.heap)) : wp M noteHeap s (fun _ t => t = s) E :=
  wp_bind (wp_gets (wp_emit fun _ => ⟨hg, rfl⟩))

/-- What it records does not have to agree. -/
theorem noteHeap_sim {bl br : Halt Status → Prop} {R : State → State → Prop} : Sim bl br R noteHeap noteHeap :=
  .gets_bind fun s t h => Sim.emit _ _ s t h

theorem linkObject_wp {o : Obj} (hg : M.good (.heap (s.heap.alloc o))) :
    wp M (linkObject o) s (fun v t => v = .obj s.heap.next ∧
      t = { s with heap := s.heap.alloc o, gcLiveObjects := s.gcLiveObjects + 1 }) E := by
  refine wp_bind (wp_gets (wp_bind (wp_modify (wp_seq (noteHeap_wp hg) ?_))))
  rintro _ t rfl
  exact wp_pure ⟨rfl, rfl⟩

/-- With an allocator that grants every request a push succeeds. -/
theorem mlGcProtect_total (hc : ∀ n size, c.alloc n size = true) :
    wp M (mlGcProtect c v) s
      (fun _ t => t =
        { s with gcProtect := s.gcProtect ++ [v], gcProtectCap := t.gcProtectCap, allocs := t.allocs }) E := by
  refine wp_mono mlGcProtect_wp (fun _ _ h => h) ?_
  rintro e t ⟨-, ⟨n, size, h⟩, -⟩
  rw [hc] at h
  cases h

/-- So does an allocation, and without collections the heap only grows by the object. -/
theorem gcAlloc_total {size : Nat} {o : Obj} (hM : ∀ h, M.good (.heap h)) (hc : ∀ n size, c.alloc n size = true)
    (hd : c.collectDue s = false) (hsize : size ≠ 0) :
    wp M (gcAlloc c size o) s (fun v t => v = .obj s.heap.next ∧
      t = { s with heap := s.heap.alloc o, gcLiveObjects := s.gcLiveObjects + 1, allocs := t.allocs }) E := by
  refine wp_bind (wp_bind (wp_gets ?_))
  rw [if_neg (by simp [hd])]
  refine wp_pure (wp_bind (wp_mono rawAllocOrFail_wp (fun _ t ht => ?_) ?_))
  · refine wp_mono (linkObject_wp (hM _)) ?_ (fun _ _ h => h)
    rintro v u ⟨rfl, rfl⟩
    rw [ht]
    exact ⟨rfl, rfl⟩
  · rintro e t ⟨-, h | ⟨n, h⟩, -⟩
    · exact absurd h hsize
    · rw [hc] at h
      cases h

theorem writeObj_wp {o : Obj} (h : M.safe → ∃ a, v = .obj a) (hg : ∀ a, v = .obj a → M.good (.heap (s.heap.set a o))) :
    wp M (writeObj v o) s (fun _ t => ∃ a, v = .obj a ∧ t = { s with heap := s.heap.set a o }) E := by
  cases v with
  | obj a =>
    refine wp_bind (wp_modify (wp_mono (noteHeap_wp (hg a rfl)) ?_ fun _ _ h => h))
    rintro _ t rfl
    exact ⟨a, rfl, rfl⟩
  | _ =>
    refine wp_stuck (fun hs => ?_)
    obtain ⟨_, h⟩ := h hs
    cases h

/-! ## Integers -/

theorem makeFix_wp {x : Int} {Q : Val → State → Prop} (hg : M.good (.madeFix x)) (h : Q (mlMakeFix x) s) :
    wp M (makeFix x) s Q E :=
  wp_bind (wp_emit fun _ => ⟨hg, wp_pure h⟩)

theorem int64Op_wp {x : Int} {Q : Int → State → Prop} (hg : M.good (.int64 x))
    (hx : M.safe → int64Min ≤ x ∧ x ≤ int64Max) (h : Q x s) : wp M (int64Op x) s Q E := by
  refine wp_bind (wp_emit fun _ => ⟨hg, ?_⟩)
  unfold int64Checked
  by_cases hfits : int64Min ≤ x ∧ x ≤ int64Max
  · rw [if_pos hfits]
    exact wp_pure h
  · rw [if_neg hfits]
    exact wp_stuck fun hs => hfits (hx hs)

end Microlisp
