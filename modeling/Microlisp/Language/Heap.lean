import Microlisp.Expansions
import Microlisp.Language.Semantics
import Microlisp.Lib.Worlds
/-!
# The language in the heap

How a state of the interpreter stands for a world of the language: where its frames are, and what
its values are. Frames are found at the addresses of a list, which only grows, and what stands for
a value goes on doing so while frames are changed and objects are added.
-/
namespace Microlisp

open Prog Microlisp.Language

/-! ## Values -/

/-- The frames of an environment, one inside another. A frame is younger than the one around it. -/
def Heap.Chain (h : Heap) (fs : List Nat) : List Nat → Val → Prop
  | [], v => v = mvNil
  | k :: env, v =>
    ∃ (a : Nat) (f : Frame), fs[k]? = some a ∧ v = .obj a ∧ h.get a = some f.obj ∧ (∀ x, f.parent = .obj x → x < a) ∧
      h.Chain fs env f.parent

/-- A parameter list. -/
def parameters (params : List Bytes) (rest : Option Bytes) : Datum :=
  .list (params.map .sym) ((rest.map Datum.sym).getD .nil)

/-- What stands for a value. -/
def Heap.Stands (h : Heap) (names : List Bytes) (fs : List Nat) : Value → Val → Prop
  | .undef, v => v = mvUndef
  | .nil, v => v = mvNil
  | .fix x, v => fitsFixnum x = true ∧ v = mlMakeFix x
  | .bool b, v => v = mlMakeBool b
  | .sym name, v => ∃ i, v = .sym i ∧ names.findIdx? (fun e => e == name) = some i.toNat
  | .str bytes, v => h.Has v (.string bytes)
  | .pair x y, v => ∃ p q, h.Has v (.pair p q) ∧ h.Stands names fs x p ∧ h.Stands names fs y q
  | .closure params rest body env, v => ∃ cl : Closure, h.Has v cl.obj ∧ h.Chain fs env cl.env ∧
      h.Shows names (fun _ => True) (parameters params rest) cl.params ∧
        h.Shows names (fun _ => True) (.list body .nil) cl.body ∧
      cl.variadic = rest.isSome ∧ cl.arityMin.toNat = params.length
  | .prim name fn arityMin arityMax, v => h.Has v (.prim name fn arityMin arityMax)

/-- A binding. -/
def Heap.Binds (h : Heap) (names : List Bytes) (fs : List Nat) (x : Bytes × Value) (b : Val × Val) : Prop :=
  h.Stands names fs (.sym x.1) b.1 ∧ h.Stands names fs x.2 b.2

/-- The state stands for the world, with its frames at the addresses `fs`. -/
structure State.Depicts (fs : List Nat) (w : World) (s : State) : Prop where
  frames : ∀ (k a : Nat), fs[k]? = some a → ∃ f : Frame, s.heap.get a = some f.obj ∧
    List.Forall₂ (s.heap.Binds s.symtab.entries fs) (w.vars k) f.bindings
  count : fs.length = w.frames.length
  distinct : fs.Nodup
  names : specialForms.map ascii <+: s.symtab.entries
  output : s.output = w.output
  printDepth : s.printDepth = 0
  equalDepth : s.equalDepth = 0

/-- Frames and objects have been added, and frames changed. -/
structure Onward (fs : List Nat) (s : State) (fs' : List Nat) (t : State) : Prop where
  frames : fs <+: fs'
  heap : s.heap.Agree (fun _ => True) t.heap
  symtab : t.symtab = s.symtab

theorem Onward.refl {fs : List Nat} {s : State} : Onward fs s fs s :=
  ⟨List.prefix_refl _, .of_all fun _ o ho => ⟨o, ho, .refl o⟩, rfl⟩

theorem Onward.trans {fs fs' fs'' : List Nat} {s t u : State} (h : Onward fs s fs' t) (h' : Onward fs' t fs'' u) :
    Onward fs s fs'' u :=
  ⟨h.frames.trans h'.frames, h.heap.trans h'.heap, h'.symtab.trans h.symtab⟩

/-- Nothing that the language knows of has changed. -/
structure Unaltered (s t : State) : Prop where
  heap : t.heap = s.heap
  symtab : t.symtab = s.symtab
  output : t.output = s.output
  printDepth : t.printDepth = s.printDepth
  equalDepth : t.equalDepth = s.equalDepth

theorem Unaltered.trans {s t u : State} (h : Unaltered s t) (h' : Unaltered t u) : Unaltered s u :=
  ⟨h'.heap.trans h.heap, h'.symtab.trans h.symtab, h'.output.trans h.output, h'.printDepth.trans h.printDepth,
    h'.equalDepth.trans h.equalDepth⟩

theorem Onward.quiet {fs fs' : List Nat} {s t u : State} (h : Onward fs s fs' t) (hq : Unaltered t u) :
    Onward fs s fs' u :=
  ⟨h.frames, hq.heap ▸ h.heap, hq.symtab.trans h.symtab⟩

theorem State.Depicts.quiet {fs : List Nat} {w : World} {s t : State} (h : s.Depicts fs w) (hq : Unaltered s t) :
    t.Depicts fs w where
  frames := by
    rw [hq.heap, hq.symtab]
    exact h.frames
  count := h.count
  distinct := h.distinct
  names := hq.symtab ▸ h.names
  output := hq.output.trans h.output
  printDepth := hq.printDepth.trans h.printDepth
  equalDepth := hq.equalDepth.trans h.equalDepth

section Later
variable {h h' : Heap} {names : List Bytes} {fs fs' : List Nat} {d : Datum} {v w : Val} {x y : Value} {env : List Nat}

theorem Heap.Shows.agree (hv : h.Shows names (fun _ => True) d v) (hx : h.Agree (fun _ => True) h') :
    h'.Shows names (fun _ => True) d v := by
  apply hv.transfer _ (List.prefix_refl _) fun _ _ _ => trivial
  intro a o _ ho hdata
  obtain ⟨o', ho', hg⟩ := hx.same a trivial o ho
  rw [ho', hg.eq]
  cases o <;> first | rfl | cases hdata

theorem Heap.Chain.later (hv : h.Chain fs env v) (hx : h.Agree (fun _ => True) h') (hfs : fs <+: fs') :
    h'.Chain fs' env v := by
  induction env generalizing v with
  | nil => exact hv
  | cons k env ih =>
    obtain ⟨a, f, hk, rfl, hf, hold, hrest⟩ := hv
    obtain ⟨o', ho', bs, cap, rfl, -⟩ := hx.same a trivial _ hf
    refine ⟨a, ⟨f.parent, bs, cap⟩, ?_, rfl, ho', hold, ih hrest⟩
    obtain ⟨more, rfl⟩ := hfs
    obtain ⟨hlt, -⟩ := List.getElem?_eq_some_iff.1 hk
    rw [List.getElem?_append_left hlt, hk]

theorem Heap.Stands.later (hv : h.Stands names fs x v) (hx : h.Agree (fun _ => True) h') (hfs : fs <+: fs') :
    h'.Stands names fs' x v := by
  induction x generalizing v with
  | str bytes => exact hx.has_eq Val.in_all hv rfl
  | pair a d iha ihd =>
    obtain ⟨p, q, ho, hp, hq⟩ := hv
    exact ⟨p, q, hx.has_eq Val.in_all ho rfl, iha hp, ihd hq⟩
  | closure params rest body env =>
    obtain ⟨cl, ho, henv, hparams, hbody, harity⟩ := hv
    exact ⟨cl, hx.has_eq Val.in_all ho rfl, henv.later hx hfs, hparams.agree hx, hbody.agree hx, harity⟩
  | prim name fn arityMin arityMax => exact hx.has_eq Val.in_all hv rfl
  | _ => exact hv

theorem Heap.Binds.later {b : Bytes × Value} {b' : Val × Val} (hb : h.Binds names fs b b')
    (hx : h.Agree (fun _ => True) h')
    (hfs : fs <+: fs') : h'.Binds names fs' b b' := ⟨hb.1.later hx hfs, hb.2.later hx hfs⟩

/-- A quoted datum. -/
theorem Heap.Shows.stands (hv : h.Shows names (fun _ => True) d v) : h.Stands names fs (.ofDatum d) v := by
  induction d generalizing v with
  | str bytes =>
    obtain ⟨a, rfl, -, ho⟩ := hv
    exact ⟨a, rfl, ho⟩
  | pair a d iha ihd =>
    obtain ⟨x, p, q, rfl, -, ho, hp, hq⟩ := hv
    exact ⟨p, q, ⟨x, rfl, ho⟩, iha hp, ihd hq⟩
  | _ => exact hv

/-- A symbol is known by its name. -/
theorem Heap.stands_sym_iff {name name' : Bytes} (hv : h.Stands names fs (.sym name) v)
    (hw : h.Stands names fs (.sym name') w) :
    name = name' ↔ v = w := by
  obtain ⟨i, rfl, hi⟩ := hv
  obtain ⟨j, rfl, hj⟩ := hw
  constructor
  · rintro rfl
    rw [hi] at hj
    rw [UInt32.toNat_inj.1 (Option.some.inj hj)]
  · rintro ⟨⟩
    obtain ⟨hlt, hname, -⟩ := List.findIdx?_eq_some_iff_getElem.1 hi
    obtain ⟨hlt', hname', -⟩ := List.findIdx?_eq_some_iff_getElem.1 hj
    rw [← eq_of_beq hname, ← eq_of_beq hname']

/-- The kinds of values that are objects. -/
def Language.Value.isObj : Value → Bool
  | .str _ | .pair .. | .closure .. | .prim .. => true
  | _ => false

theorem Heap.Stands.obj (hv : h.Stands names fs x v) (hx : x.isObj = true) :
    ∃ a o, v = .obj a ∧ h.get a = some o ∧ o.isEnv = false := by
  cases x with
  | str bytes =>
    obtain ⟨a, rfl, ho⟩ := hv
    exact ⟨a, _, rfl, ho, rfl⟩
  | pair =>
    obtain ⟨_, _, ⟨a, rfl, ho⟩, -⟩ := hv
    exact ⟨a, _, rfl, ho, rfl⟩
  | closure =>
    obtain ⟨cl, ⟨a, rfl, ho⟩, -⟩ := hv
    exact ⟨a, _, rfl, ho, rfl⟩
  | prim =>
    obtain ⟨a, rfl, ho⟩ := hv
    exact ⟨a, _, rfl, ho, rfl⟩
  | _ => cases hx

theorem Heap.Stands.not_obj (hv : h.Stands names fs x v) (hx : x.isObj = false) (a : Nat) : v ≠ .obj a := by
  rintro rfl
  cases x with
  | undef => cases hv
  | nil => cases hv
  | fix y => cases hv.2
  | bool b => cases b <;> cases hv
  | sym name =>
    obtain ⟨_, ⟨⟩, -⟩ := hv
  | _ => cases hx

/-- The kind of an object. -/
def Language.Value.Looks : Value → Obj → Prop
  | .str bytes, .string bytes' => bytes = bytes'
  | .pair .., .pair .. => True
  | .closure .., .closure .. => True
  | .prim .., .prim .. => True
  | _, _ => False

theorem Heap.Stands.looks {o : Obj} (hv : h.Stands names fs x v) (ho : h.Has v o) : x.Looks o := by
  obtain ⟨a, rfl, hget⟩ := id ho
  cases x with
  | str bytes =>
    rw [ho.unique hv]
    rfl
  | pair =>
    obtain ⟨_, _, ho', -⟩ := hv
    rw [ho.unique ho']
    trivial
  | closure =>
    obtain ⟨_, ho', -⟩ := hv
    rw [ho.unique ho']
    trivial
  | prim =>
    rw [ho.unique hv]
    trivial
  | _ => exact absurd rfl (hv.not_obj rfl a)

theorem Heap.Stands.truthy (hv : h.Stands names fs x v) : x.truthy = mlTruthy v := by
  cases hx : x.isObj with
  | true =>
    obtain ⟨a, o, rfl, -⟩ := hv.obj hx
    cases x <;> first | rfl | cases hx
  | false =>
    cases x with
    | undef =>
      cases hv
      rfl
    | nil =>
      cases hv
      rfl
    | fix y =>
      rw [hv.2]
      rfl
    | bool b =>
      cases hv
      cases b <;> rfl
    | sym name =>
      obtain ⟨i, rfl, -⟩ := hv
      rfl
    | _ => cases hx

/-- What the tag bits of a value say. -/
theorem Heap.Stands.kind (hv : h.Stands names fs x v) :
    (v == mvNil) = x.isNil ∧ mlIsFix v = x.isNum ∧ mlIsSym v = x.isSym ∧ mlIsBool v = x.isBool := by
  cases x with
  | fix i =>
    obtain ⟨-, rfl⟩ := hv
    exact ⟨rfl, rfl, rfl, rfl⟩
  | sym name =>
    obtain ⟨i, rfl, -⟩ := hv
    exact ⟨rfl, rfl, rfl, rfl⟩
  | undef =>
    cases hv
    exact ⟨rfl, rfl, rfl, rfl⟩
  | nil =>
    cases hv
    exact ⟨rfl, rfl, rfl, rfl⟩
  | bool b =>
    cases hv
    cases b <;> exact ⟨rfl, rfl, rfl, rfl⟩
  | _ =>
    obtain ⟨a, o, rfl, -⟩ := hv.obj rfl
    exact ⟨rfl, rfl, rfl, rfl⟩

theorem Heap.Stands.nil_iff (hv : h.Stands names fs x v) : v = mvNil ↔ x = .nil := by
  rw [← beq_iff_eq, hv.kind.1]
  cases x <;> simp [Value.isNil]

/-! ## Spines -/

/-- The pairs of a spine. -/
def Language.Value.cells : Value → Nat
  | .pair _ d => d.cells + 1
  | _ => 0

theorem Heap.Stands.spine (hv : h.Stands names fs x v) : ∃ u, h.Spine v x.cells u ∧ h.Ends u := by
  induction x generalizing v with
  | pair a d _ ih =>
    obtain ⟨p, q, ho, -, hq⟩ := hv
    obtain ⟨u, hspine, hends⟩ := ih hq
    exact ⟨u, .cons ho hspine, hends⟩
  | _ => exact ⟨v, .nil, fun p q ho => hv.looks ho⟩

end Later

end Microlisp
