import Microlisp.Balance.Primitives
/-!
# Well-formed states

In a well-formed state no handle dangles, every object holds values of the kinds its
code relies on, and every closure has the shape that a call of it assumes. What the
roots hold through fields that never change stays as it is for as long as the roots
do, whatever is allocated or collected in between.
-/
namespace Microlisp

open Prog

/-! ## Objects of the right shape -/

namespace Heap

/-- A value a program can hold: a fixnum in range, or a handle of an object that is not a
frame. -/
def ValOk (h : Heap) : Val → Prop
  | .obj a => ∃ o, h.get a = some o ∧ o.isEnv = false
  | .fix p => fitsFixnum (mlFixInt p) = true
  | .imm _ => True
  | .sym _ => True
  | .reserved _ => False

/-- A handle of a frame. -/
def FrameOk (h : Heap) (v : Val) : Prop := ∃ f : Frame, h.Has v f.obj

/-- A proper list of `n` elements. -/
inductive IsList (h : Heap) : Val → Nat → Prop
  | nil : IsList h mvNil 0
  | cons {v a d : Val} {n : Nat} : h.Has v (.pair a d) → IsList h d n → IsList h v (n + 1)

/-- A parameter list: `n` cells that hold symbols, ended by `()`, or by a symbol for the
rest of the arguments. -/
inductive Params (h : Heap) : Val → Bool → Nat → Prop
  | nil : Params h mvNil false 0
  | rest {i : UInt32} : Params h (.sym i) true 0
  | cons {v d : Val} {i : UInt32} {variadic : Bool} {n : Nat} :
      h.Has v (.pair (.sym i) d) → Params h d variadic n → Params h v variadic (n + 1)

/-- The object holds what its code relies on. The count of parameters is a `uint32_t`. -/
def ObjOk (h : Heap) : Obj → Prop
  | .pair a d => h.ValOk a ∧ h.ValOk d
  | .string _ => True
  | .closure env params body variadic arityMin =>
    h.FrameOk env ∧ h.ValOk params ∧ (∃ n, h.Params params variadic n ∧ arityMin = UInt32.ofNat n) ∧
      h.ValOk body ∧ ∃ n, h.IsList body (n + 1)
  | .prim name fn arityMin arityMax => (name, fn, arityMin, arityMax) ∈ kPrimitives
  | .env parent bindings _ =>
    (parent = mvNil ∨ h.FrameOk parent) ∧ ∀ b ∈ bindings, mlIsSym b.1 = true ∧ h.ValOk b.2

end Heap

/-- A well-formed state of the interpreter. -/
structure State.WellFormed (c : Config) (s : State) : Prop where
  clear : s.heap.Clear
  objs : ∀ a o, s.heap.get a = some o → s.heap.ObjOk o
  toplevel : s.heap.FrameOk c.toplevelEnv
  protect : ∀ v ∈ s.gcProtect, s.heap.ValOk v ∨ s.heap.FrameOk v
  pending : ∀ v ∈ s.pending, s.heap.FrameOk v

/-! ## Heaps that agree on some addresses -/

/-- The fields of an object that never change. -/
def Obj.fixedRefs : Obj → List Val
  | .pair a d => [a, d]
  | .string _ => []
  | .closure e params body _ _ => [e, params, body]
  | .prim .. => []
  | .env parent _ _ => [parent]

theorem Obj.fixedRefs_sub {o : Obj} {v : Val} (h : v ∈ o.fixedRefs) : v ∈ o.refs := by
  cases o <;> simp_all [Obj.fixedRefs, Obj.refs]

theorem Obj.Grows.fixedRefs {o o' : Obj} (h : o.Grows o') : o'.fixedRefs = o.fixedRefs := by
  cases o with
  | env p b k =>
    obtain ⟨b', k', rfl, -⟩ := h
    rfl
  | _ =>
    cases h
    rfl

theorem Obj.Grows.isEnv {o o' : Obj} (h : o.Grows o') : o'.isEnv = o.isEnv := by
  cases o with
  | env p b k =>
    obtain ⟨b', k', rfl, -⟩ := h
    rfl
  | _ =>
    cases h
    rfl

theorem Obj.Grows.eq {o o' : Obj} (h : o.Grows o') (ho : o.isEnv = false) : o' = o := by
  cases o with
  | env p b k => cases ho
  | _ => exact h

/-- The objects at the addresses in `K` are in `h'` as they were in `h`, and `K` is closed
under their fixed fields. -/
structure Heap.Agree (K : Nat → Prop) (h h' : Heap) : Prop where
  same : ∀ a, K a → ∀ o, h.get a = some o → ∃ o', h'.get a = some o' ∧ o.Grows o'
  closed : ∀ a, K a → ∀ o, h.get a = some o → ∀ b, .obj b ∈ o.fixedRefs → K b

/-- The address behind `v`, if there is one, is in `K`. -/
def Val.In (K : Nat → Prop) (v : Val) : Prop := ∀ a, v = .obj a → K a

namespace Heap.Agree

variable {K : Nat → Prop} {h h' : Heap} {v : Val} {o : Obj}

theorem has (hx : Agree K h h') (hv : v.In K) (ho : h.Has v o) : ∃ o', h'.Has v o' ∧ o.Grows o' := by
  obtain ⟨a, rfl, ha⟩ := ho
  obtain ⟨o', ho', hg⟩ := hx.same a (hv a rfl) o ha
  exact ⟨o', ⟨a, rfl, ho'⟩, hg⟩

theorem trans {h'' : Heap} (hx : Agree K h h') (hx' : Agree K h' h'') : Agree K h h'' where
  same := by
    intro a ha o ho
    obtain ⟨o', ho', hg⟩ := hx.same a ha o ho
    obtain ⟨o'', ho'', hg'⟩ := hx'.same a ha o' ho'
    exact ⟨o'', ho'', hg.trans hg'⟩
  closed := hx.closed

/-- Only frames change. -/
theorem has_eq (hx : Agree K h h') (hv : v.In K) (ho : h.Has v o) (hne : o.isEnv = false) : h'.Has v o := by
  obtain ⟨o', ho', hg⟩ := hx.has hv ho
  exact hg.eq hne ▸ ho'

theorem field (hx : Agree K h h') (hv : v.In K) (ho : h.Has v o) {w : Val} (hw : w ∈ o.fixedRefs) : w.In K := by
  obtain ⟨a, rfl, ha⟩ := ho
  rintro b rfl
  exact hx.closed a (hv a rfl) o ha b hw

theorem valOk (hx : Agree K h h') (hv : v.In K) (hok : h.ValOk v) : h'.ValOk v := by
  cases v with
  | obj a =>
    obtain ⟨o, ho, hne⟩ := hok
    obtain ⟨o', ho', hg⟩ := hx.same a (hv a rfl) o ho
    exact ⟨o', ho', hg.isEnv.trans hne⟩
  | _ => exact hok

theorem frameOk (hx : Agree K h h') (hv : v.In K) (hok : h.FrameOk v) : h'.FrameOk v := by
  obtain ⟨f, hf⟩ := hok
  obtain ⟨o', ho', b', k', rfl, -⟩ := hx.has hv hf
  exact ⟨⟨f.parent, b', k'⟩, ho'⟩

theorem isList {n : Nat} (hx : Agree K h h') (hv : v.In K) (hl : h.IsList v n) : h'.IsList v n := by
  induction hl with
  | nil => exact .nil
  | cons ho _ ih => exact .cons (hx.has_eq hv ho rfl) (ih (hx.field hv ho (by simp [Obj.fixedRefs])))

theorem params {variadic : Bool} {n : Nat} (hx : Agree K h h') (hv : v.In K) (hp : h.Params v variadic n) :
    h'.Params v variadic n := by
  induction hp with
  | nil => exact .nil
  | rest => exact .rest
  | cons ho _ ih => exact .cons (hx.has_eq hv ho rfl) (ih (hx.field hv ho (by simp [Obj.fixedRefs])))

/-- An object whose fields are in `K` keeps its shape. -/
theorem objOk (hx : Agree K h h') (hrefs : ∀ v ∈ o.refs, v.In K) (hok : h.ObjOk o) : h'.ObjOk o := by
  cases o with
  | pair a d =>
    exact ⟨hx.valOk (hrefs a (by simp [Obj.refs])) hok.1, hx.valOk (hrefs d (by simp [Obj.refs])) hok.2⟩
  | string b => trivial
  | closure e p b va n =>
    obtain ⟨he, hp, ⟨k, hk, hn⟩, hb, m, hm⟩ := hok
    have hin : ∀ v ∈ [e, p, b], v.In K := hrefs
    exact ⟨hx.frameOk (hin e (by simp)) he, hx.valOk (hin p (by simp)) hp, ⟨k, hx.params (hin p (by simp)) hk, hn⟩,
      hx.valOk (hin b (by simp)) hb, m, hx.isList (hin b (by simp)) hm⟩
  | prim n fn mn mx => exact hok
  | env p bs k =>
    refine ⟨hok.1.imp id (hx.frameOk (hrefs p (by simp [Obj.refs]))), fun b hb => ⟨(hok.2 b hb).1, ?_⟩⟩
    refine hx.valOk (hrefs b.2 ?_) (hok.2 b hb).2
    simp only [Obj.refs, List.mem_cons, List.mem_flatMap]
    exact .inr ⟨b, hb, by simp⟩

/-- A heap that has grown. -/
theorem of_all (hsame : ∀ a o, h.get a = some o → ∃ o', h'.get a = some o' ∧ o.Grows o') :
    Agree (fun _ => True) h h' :=
  ⟨fun a _ => hsame a, fun _ _ _ _ _ _ => trivial⟩

end Heap.Agree

/-! ## What the roots hold -/

/-- The values that are rooted at `s`, or will be before the next collection that counts. -/
def State.held (c : Config) (s : State) : List Val := c.toplevelEnv :: (s.gcProtect ++ s.pending)

/-- Some root leads to the object at `a` through fields that never change. -/
def State.Kept (c : Config) (s : State) (a : Nat) : Prop :=
  Mark.Reach (fun a b => ∃ o, s.heap.get a = some o ∧ .obj b ∈ o.fixedRefs)
    ((s.held c).filterMap fun | .obj a => some a | _ => none) a

section Kept
variable {c : Config} {s t : State} {v : Val} {o : Obj} {a : Nat}

theorem State.kept_of_held (hv : v ∈ s.held c) : v.In (s.Kept c) := by
  rintro a rfl
  exact .root (List.mem_filterMap.2 ⟨_, hv, rfl⟩)

theorem State.kept_of_protect (hv : v ∈ s.gcProtect) : v.In (s.Kept c) :=
  State.kept_of_held (by simp [State.held, hv])

/-- A fixed field of a kept object is kept. -/
theorem State.kept_field (hv : v.In (s.Kept c)) (ho : s.heap.Has v o) {w : Val} (hw : w ∈ o.fixedRefs) :
    w.In (s.Kept c) := by
  obtain ⟨a, rfl, ha⟩ := ho
  rintro b rfl
  exact (hv a rfl).step ⟨o, ha, hw⟩

theorem Heap.ValOk.has (hv : s.heap.ValOk v) (h : v = .obj a) : ∃ o, s.heap.get a = some o := by
  subst h
  obtain ⟨o, ho, -⟩ := hv
  exact ⟨o, ho⟩

theorem Heap.FrameOk.has (hv : s.heap.FrameOk v) (h : v = .obj a) : ∃ o, s.heap.get a = some o := by
  obtain ⟨f, _, rfl, ho⟩ := hv
  cases h
  exact ⟨_, ho⟩

/-- The fields of a well-formed object do not dangle. -/
theorem Heap.ObjOk.live (ho : s.heap.ObjOk o) (hv : .obj a ∈ o.refs) : ∃ o', s.heap.get a = some o' := by
  cases o with
  | pair x d =>
    rcases List.mem_pair.1 hv with h | h
    · exact ho.1.has h.symm
    · exact ho.2.has h.symm
  | string b => cases hv
  | closure e p b va n =>
    simp only [Obj.refs, List.mem_cons, List.not_mem_nil, or_false] at hv
    rcases hv with h | h | h
    · exact ho.1.has h.symm
    · exact ho.2.1.has h.symm
    · exact ho.2.2.2.1.has h.symm
  | prim n fn mn mx => cases hv
  | env p bs k =>
    simp only [Obj.refs, List.mem_cons, List.mem_flatMap] at hv
    rcases hv with h | ⟨b, hb, h⟩
    · rcases ho.1 with hp | hp
      · rw [hp] at h
        cases h
      · exact hp.has h.symm
    · obtain ⟨hsym, hval⟩ := ho.2 b hb
      simp only [List.not_mem_nil, or_false] at h
      rcases h with h | h
      · exact hval.has h.symm
      · rw [← h] at hsym
        cases hsym

/-- Every kept object is there. -/
theorem State.WellFormed.kept_live (hs : s.WellFormed c) (ha : s.Kept c a) : ∃ o, s.heap.get a = some o := by
  refine Mark.Reach.mem_of_closed (S := {a | ∃ o, s.heap.get a = some o}) ?_ ?_ ha
  · intro a ha
    obtain ⟨v, hv, hva⟩ := List.mem_filterMap.1 ha
    cases v with
    | obj b =>
      cases hva
      simp only [State.held, List.mem_cons, List.mem_append] at hv
      rcases hv with hv | hv | hv
      · exact hs.toplevel.has hv.symm
      · exact (hs.protect _ hv).elim (fun h => h.has rfl) (fun h => h.has rfl)
      · exact (hs.pending _ hv).has rfl
    | _ => cases hva
  · rintro a b - ⟨o, ho, hb⟩
    exact (hs.objs a o ho).live (Obj.fixedRefs_sub hb)

/-- `t` comes after `s`, and what is rooted at `s` is rooted at `t`. -/
structure State.Later (c : Config) (s t : State) : Prop where
  heap : s.heap.Ext c t.heap
  held : ∀ v ∈ s.held c, v ∈ t.held c

/-- What is kept at `s` is kept, unchanged, at a later well-formed state. -/
theorem State.Later.agree (hl : s.Later c t) (ht : t.WellFormed c) :
    s.heap.Agree (s.Kept c) t.heap ∧ ∀ a, s.Kept c a → t.Kept c a := by
  have hsame : ∀ a, t.Kept c a → ∀ o, s.heap.get a = some o → ∃ o', t.heap.get a = some o' ∧ o.Grows o' := by
    intro a ha o ho
    obtain ⟨o', ho'⟩ := ht.kept_live ha
    obtain ⟨o₁, ho₁, hg⟩ := hl.heap.old a o' (Heap.lt_next_of_get ho).2 ho'
    rw [ho] at ho₁
    cases ho₁
    exact ⟨o', ho', hg⟩
  have hkept : ∀ a, s.Kept c a → t.Kept c a := by
    intro a ha
    refine Mark.Reach.mem_of_closed (S := {a | t.Kept c a}) ?_ ?_ ha
    · intro a ha
      obtain ⟨v, hv, hva⟩ := List.mem_filterMap.1 ha
      exact .root (List.mem_filterMap.2 ⟨v, hl.held v hv, hva⟩)
    · rintro a b ha ⟨o, ho, hb⟩
      obtain ⟨o', ho', hg⟩ := hsame a ha o ho
      exact Mark.Reach.step ha ⟨o', ho', hg.fixedRefs.symm ▸ hb⟩
  exact ⟨⟨fun a ha => hsame a (hkept a ha), fun a ha o ho b hb => ha.step ⟨o, ho, hb⟩⟩, hkept⟩

end Kept
end Microlisp
