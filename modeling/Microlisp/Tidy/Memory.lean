import Microlisp.Lib.Rank
import Microlisp.Arith
import Microlisp.Balance.Reader
/-!
# Tidy heaps

A heap is tidy when its fixnums are in range, its handles lead to objects that have been
made, and its pairs form no cycle. Nothing is said of whether those objects are still
there: this holds under every collection schedule and every allocator.

`Tidies vs m out` says that `m`, from a tidy state in which the values `vs` fit, ends in a
tidy state in which they still fit, as do the values `out a` when it returns `a`.
-/
namespace Microlisp

open Prog

/-! ## Tidy heaps -/

/-- A fixnum in range, or a handle of an object made before `n`. -/
def Val.Fit (n : Nat) : Val → Prop
  | .fix p => fitsFixnum (mlFixInt p) = true
  | .obj a => a < n
  | _ => True

theorem Val.Fit.mono {v : Val} {n m : Nat} (h : v.Fit n) (hn : n ≤ m) : v.Fit m := by
  cases v with
  | obj a => exact Nat.lt_of_lt_of_le h hn
  | _ => exact h

theorem Val.Plain.fit {v : Val} {n : Nat} (h : v.Plain) : v.Fit n := by
  cases v with
  | fix p => exact h
  | imm i => trivial
  | _ => exact h.elim

theorem Val.Fit.inRange {v : Val} {n : Nat} (h : v.Fit n) : v.InRange := by
  cases v with
  | fix p => exact h
  | _ => trivial

namespace Heap

/-- The pair at `a` holds a handle of the object at `b`. -/
def PairEdge (h : Heap) (a b : Nat) : Prop := ∃ x y, h.get a = some (.pair x y) ∧ b ∈ (Obj.pair x y).ptrs

structure Tidy (h : Heap) : Prop where
  fit : ∀ a o, h.get a = some o → ∀ v ∈ o.refs, v.Fit h.next
  ranked : Ranked h.PairEdge

variable {h h' : Heap} {a b : Nat} {o : Obj}

/-- What an object points to has been made. -/
theorem Tidy.ptr_lt (ht : h.Tidy) (ho : h.get a = some o) (hb : b ∈ o.ptrs) : b < h.next := by
  obtain ⟨v, hv, hp⟩ := List.mem_filterMap.1 hb
  have hfit := ht.fit a o ho v hv
  rw [(Val.ptr_eq_some.1 hp).1] at hfit
  exact hfit

theorem Tidy.shrink (ht : h.Tidy) (hn : h'.next = h.next) (hsub : ∀ a o, h'.get a = some o → h.get a = some o) :
    h'.Tidy where
  fit := by
    intro a o ho
    rw [hn]
    exact ht.fit a o (hsub a o ho)
  ranked := by
    apply ht.ranked.mono
    rintro a b ⟨x, y, hp, hb⟩
    exact ⟨x, y, hsub a _ hp, hb⟩

theorem Tidy.alloc (ht : h.Tidy) (ho : ∀ v ∈ o.refs, v.Fit h.next) : (h.alloc o).Tidy where
  fit := by
    intro a o' ho' v hv
    rw [get_alloc] at ho'
    have hfit : v.Fit h.next := by
      split at ho'
      · cases ho'
        exact ho v hv
      · exact ht.fit a o' ho' v hv
    exact hfit.mono (Nat.le_succ _)
  ranked := by
    -- the new object points to old ones, and nothing points to it yet
    apply ht.ranked.source (x := h.next) (l := o.ptrs)
    · rintro a ⟨x, y, hp, hb⟩
      rw [get_alloc] at hp
      split at hp
      · cases hp
        obtain ⟨v, hv, hptr⟩ := List.mem_filterMap.1 hb
        have hfit := ho v hv
        rw [(Val.ptr_eq_some.1 hptr).1] at hfit
        exact Nat.lt_irrefl _ hfit
      · exact Nat.lt_irrefl _ (ht.ptr_lt hp hb)
    · rintro a b ⟨x, y, hp, hb⟩
      rw [get_alloc] at hp
      split at hp
      · rename_i ha
        cases hp
        exact .inr ⟨ha, hb⟩
      · exact .inl ⟨x, y, hp, hb⟩

/-- Overwriting a frame. -/
theorem Tidy.setFrame {f : Frame} {bs : List (Val × Val)} {k : Nat} (ht : h.Tidy) (hf : h.get a = some f.obj)
    (hbs : ∀ b ∈ bs, b.1.Fit h.next ∧ b.2.Fit h.next) : (h.set a (.env f.parent bs k)).Tidy where
  fit := by
    intro b o' ho' v hv
    rw [get_set] at ho'
    split at ho'
    · rename_i hba
      rw [hba, hf] at ho'
      cases ho'
      have hparent := ht.fit a _ hf f.parent (by simp [Frame.obj, Obj.refs])
      rcases List.mem_cons.1 hv with rfl | hv
      · exact hparent
      · obtain ⟨p, hp, hv⟩ := List.mem_flatMap.1 hv
        rcases List.mem_pair.1 hv with rfl | rfl
        · exact (hbs p hp).2
        · exact (hbs p hp).1
    · exact ht.fit b o' ho' v hv
  ranked := by
    apply ht.ranked.mono
    rintro b d ⟨x, y, hp, hd⟩
    rw [get_set] at hp
    split at hp
    · rename_i hba
      rw [hba, hf] at hp
      cases hp
    · exact ⟨x, y, hp, hd⟩

end Heap

/-- The heap is tidy, and what the roots hold fits it. -/
structure State.Tidy (c : Config) (s : State) : Prop where
  heap : s.heap.Tidy
  protect : ∀ v ∈ s.gcProtect, v.Fit s.heap.next
  toplevel : c.toplevelEnv.Fit s.heap.next

/-- A handle of an object made at `b` or later, if it is a handle at all. -/
def Val.Since (b : Nat) : Val → Prop
  | .obj a => b ≤ a
  | _ => True

/-- The pairs made at `b` or later hold no handles of older objects. -/
def Heap.Closed (h : Heap) (b : Nat) : Prop :=
  ∀ a x y, b ≤ a → h.get a = some (.pair x y) → x.Since b ∧ y.Since b

/-- The values `vs` fit a tidy state, and have been made at `b` or later. -/
structure State.Ctx (c : Config) (b : Nat) (vs : List Val) (s : State) : Prop extends State.Tidy c s where
  fits : ∀ v ∈ vs, v.Fit s.heap.next
  since : ∀ v ∈ vs, v.Since b
  le : b ≤ s.heap.next
  closed : s.heap.Closed b

/-- What a run records when all is well: tidy heaps, fixnums in range among the arguments
of a call, integers that a fixnum holds, and `int64_t` operations that do not overflow. -/
def Event.Tidy : Event → Prop
  | .heap h => h.Tidy
  | .called argv => ∀ v ∈ argv, v.InRange
  | .madeFix x => fitsFixnum x = true
  | .int64 x => int64Min ≤ x ∧ x ≤ int64Max
  | _ => True

abbrev tidyMode : Mode Event := Mode.noting Event.Tidy

theorem counts_tidy : Counts tidyMode := ⟨fun _ h => h, fun _ h h' => ⟨h, h'⟩⟩

def Tidies {α : Type} (c : Config) (b : Nat) (vs : List Val) (m : ML α) (out : α → List Val) : Prop :=
  Triple tidyMode (State.Ctx c b vs) m (fun a => State.Ctx c b (out a ++ vs)) (fun _ t => t.Tidy c)

/-- The value is one of `vs`, or fits every heap. -/
def Val.Known (vs : List Val) (v : Val) : Prop := v ∈ vs ∨ ∀ n, v.Fit n

section Rules
variable {c : Config} {b : Nat} {vs ws : List Val} {s t : State} {v : Val} {α β : Type} {m : ML α} {f : α → ML β}
  {out : α → List Val} {res : β → List Val}

theorem Val.since_zero : v.Since 0 := by
  cases v with
  | obj a => exact Nat.zero_le a
  | _ => trivial

theorem Heap.closed_zero {h : Heap} : h.Closed 0 := fun _ _ _ _ _ => ⟨Val.since_zero, Val.since_zero⟩

/-- In a heap, nothing has been made yet at the next address. -/
theorem Heap.closed_next {h : Heap} : h.Closed h.next := fun a _ _ ha hp => absurd (Heap.lt_next_of_get hp).2 (by omega)

theorem State.Tidy.ctx (h : s.Tidy c) : s.Ctx c s.heap.next [] := ⟨h, by simp, by simp, Nat.le_refl _, Heap.closed_next⟩

theorem State.Tidy.ctx_zero (h : s.Tidy c) (hvs : ∀ v ∈ vs, v.Fit s.heap.next) : s.Ctx c 0 vs :=
  ⟨h, hvs, fun _ _ => Val.since_zero, Nat.zero_le _, Heap.closed_zero⟩

theorem State.Ctx.known (h : s.Ctx c b vs) (hv : v.Known vs) : v.Fit s.heap.next := by
  rcases hv with hv | hv
  · exact h.fits v hv
  · exact hv _

theorem State.Ctx.known_since (h : s.Ctx c b vs) (hv : v.Known vs) : v.Since b := by
  rcases hv with hv | hv
  · exact h.since v hv
  · cases v with
    | obj a => exact absurd (hv 0) (Nat.not_lt_zero a)
    | _ => trivial

/-- What is known stays known, and so is what comes in front. -/
theorem Val.Known.tail (h : v.Known vs) : v.Known (ws ++ vs) := h.imp_left (List.mem_append_right ws)

theorem Val.Known.head (h : v ∈ ws) : v.Known (ws ++ vs) := .inl (List.mem_append_left vs h)

theorem Val.Known.top : v.Known ([v] ++ vs) := .head List.mem_cons_self

theorem State.Ctx.weaken (h : s.Ctx c b vs) (hsub : ∀ v ∈ ws, v.Known vs) : s.Ctx c b ws :=
  { h with
    fits := fun v hv => h.known (hsub v hv)
    since := fun v hv => h.known_since (hsub v hv) }

/-- More values that fit. -/
theorem State.Ctx.add (h : s.Ctx c b vs) (hfits : ∀ v ∈ ws, v.Fit s.heap.next) (hsince : ∀ v ∈ ws, v.Since b) :
    s.Ctx c b (ws ++ vs) :=
  { h with
    fits := fun v hv => (List.mem_append.1 hv).elim (hfits v) (h.fits v)
    since := fun v hv => (List.mem_append.1 hv).elim (hsince v) (h.since v) }

/-- Other fields do not matter. -/
theorem State.Tidy.of_eq (h : s.Tidy c) (hheap : t.heap = s.heap) (hp : ∀ v ∈ t.gcProtect, v ∈ s.gcProtect) :
    t.Tidy c where
  heap := hheap ▸ h.heap
  protect := by
    intro v hv
    rw [hheap]
    exact h.protect v (hp v hv)
  toplevel := hheap ▸ h.toplevel

theorem State.Ctx.of_eq (h : s.Ctx c b vs) (hheap : t.heap = s.heap) (hp : ∀ v ∈ t.gcProtect, v ∈ s.gcProtect) :
    t.Ctx c b vs where
  toTidy := h.toTidy.of_eq hheap hp
  fits := hheap ▸ h.fits
  since := h.since
  le := hheap ▸ h.le
  closed := hheap ▸ h.closed

theorem State.Tidy.restore (h : s.Tidy c) (n : Nat) : (mlGcRestore n s).Tidy c :=
  h.of_eq rfl fun _ hv => List.mem_of_mem_take hv

theorem State.Tidy.unprotect (h : s.Tidy c) (n : Nat) : (mlGcUnprotect n s).Tidy c := h.restore _

theorem State.Ctx.restore (h : s.Ctx c b vs) (n : Nat) : (mlGcRestore n s).Ctx c b vs :=
  h.of_eq rfl fun _ hv => List.mem_of_mem_take hv

theorem State.Ctx.unprotect (h : s.Ctx c b vs) (n : Nat) : (mlGcUnprotect n s).Ctx c b vs := h.restore _

theorem State.Ctx.push (h : s.Ctx c b vs) (hv : v.Known vs) :
    State.Ctx c b vs { s with gcProtect := s.gcProtect ++ [v] } :=
  { h with
    protect := by
      intro w hw
      rcases List.mem_append.1 hw with hw | hw
      · exact h.protect w hw
      · rw [List.mem_singleton.1 hw]
        exact h.known hv }

theorem State.Ctx.setSlot (h : s.Ctx c b vs) {i : Nat} (hv : v.Known vs) : (gcProtectSet i v s).Ctx c b vs :=
  { h with
    protect := by
      intro w hw
      rcases List.mem_or_eq_of_mem_set hw with hw | rfl
      · exact h.protect w hw
      · exact h.known hv }

/-- A collection. -/
theorem State.Ctx.collect (h : s.Ctx c b vs) (hn : t.heap.next = s.heap.next)
    (hsub : ∀ a o, t.heap.get a = some o → s.heap.get a = some o) (hp : t.gcProtect = s.gcProtect) : t.Ctx c b vs where
  heap := h.heap.shrink hn hsub
  protect := by
    rw [hn, hp]
    exact h.protect
  toplevel := hn ▸ h.toplevel
  fits := hn ▸ h.fits
  since := h.since
  le := hn ▸ h.le
  closed := fun a x y ha hp => h.closed a x y ha (hsub a _ hp)

/-- A new object whose fields are known. -/
theorem State.Ctx.alloc (h : s.Ctx c b vs) {o : Obj} {n : Nat} (ho : ∀ v ∈ o.refs, v.Known vs) :
    State.Ctx c b ([.obj s.heap.next] ++ vs) { s with heap := s.heap.alloc o, gcLiveObjects := n } := by
  have hle : s.heap.next ≤ s.heap.next + 1 := Nat.le_succ _
  have hctx : State.Ctx c b vs { s with heap := s.heap.alloc o, gcLiveObjects := n } := {
    heap := h.heap.alloc fun v hv => h.known (ho v hv)
    protect := fun v hv => (h.protect v hv).mono hle
    toplevel := h.toplevel.mono hle
    fits := fun v hv => (h.fits v hv).mono hle
    since := h.since
    le := Nat.le_trans h.le hle
    closed := by
      intro a x y ha hp
      rw [Heap.get_alloc] at hp
      split at hp
      · cases hp
        exact ⟨h.known_since (ho x (by simp [Obj.refs])), h.known_since (ho y (by simp [Obj.refs]))⟩
      · exact h.closed a x y ha hp }
  apply hctx.add
  · intro v hv
    rw [List.mem_singleton.1 hv]
    exact Nat.lt_succ_self _
  · intro v hv
    rw [List.mem_singleton.1 hv]
    exact h.le

namespace Tidies

theorem bind (h : Tidies c b vs m out) (hk : ∀ a, Tidies c b (out a ++ vs) (f a) res) :
    Tidies c b vs (m >>= f) res := by
  apply Triple.bind h
  intro a
  apply (hk a).conseq
  · exact fun _ h => h
  · intro x t ht
    exact ht.weaken fun v hv => .inl (by rcases List.mem_append.1 hv with hv | hv <;> simp [hv])
  · exact fun _ _ h => h

/-- The first step's result holds no values. -/
theorem seq (h : Tidies c b vs m fun _ => []) (hk : ∀ a, Tidies c b vs (f a) res) : Tidies c b vs (m >>= f) res :=
  h.bind hk

theorem ite {p : Prop} [Decidable p] {m' : ML α} (h : Tidies c b vs m out) (h' : Tidies c b vs m' out) :
    Tidies c b vs (if p then m else m') out := by
  split
  · exact h
  · exact h'

theorem pure {a : α} (h : ∀ v ∈ out a, v.Known vs) : Tidies c b vs (Pure.pure a : ML α) out :=
  Triple.pure fun _ hs => hs.add (fun v hv => hs.known (h v hv)) fun v hv => hs.known_since (h v hv)

theorem none {a : α} : Tidies c b vs (Pure.pure a : ML α) fun _ => [] := pure (by simp)

theorem known (hv : v.Known vs) : Tidies c b vs (Pure.pure v : ML Val) fun v => [v] := by
  apply pure
  intro w hw
  rw [List.mem_singleton.1 hw]
  exact hv

theorem fail {e : Status} : Tidies c b vs (Prog.fail e : ML α) out := Triple.fail fun _ h => h.toTidy

theorem stuck : Tidies c b vs (Prog.stuck : ML α) out := Triple.stuck fun _ _ => id

theorem timeout : Tidies c b vs (Prog.timeout : ML α) out := Triple.timeout fun _ _ => id

theorem reads (h : Reads m) : Tidies c b vs m fun _ => [] := h.triple

theorem modify {g : State → State} (hg : ∀ s, s.Ctx c b vs → (g s).Ctx c b vs) :
    Tidies c b vs (Prog.modify g) fun _ => [] :=
  Triple.modify hg

theorem onError {g : Status → State → State} (h : Tidies c b vs m out) (hg : ∀ e s, s.Tidy c → (g e s).Tidy c) :
    Tidies c b vs (m.onError g) out :=
  Triple.onError (Triple.conseq h (fun _ h => h) (fun _ _ h => h) fun e t ht => hg e t ht)

theorem onErr {g : State → State} (h : Tidies c b vs m out) (hg : ∀ s, s.Tidy c → (g s).Tidy c) :
    Tidies c b vs (m.onErr g) out :=
  h.onError fun _ => hg

theorem andThen {g : State → State} (h : Tidies c b vs m out) (hg : ∀ b ws s, s.Ctx c b ws → (g s).Ctx c b ws) :
    Tidies c b vs (m.andThen g) out := by
  apply Triple.andThen
  apply Triple.conseq h
  · exact fun _ h => h
  · exact fun a t ht => hg b _ t ht
  · exact fun e t ht => (hg _ [] t ht.ctx).toTidy

theorem onErr_restore {n : Nat} (h : Tidies c b vs m out) : Tidies c b vs (m.onErr (mlGcRestore n)) out :=
  h.onErr fun _ hs => hs.restore n

theorem onErr_unprotect {n : Nat} (h : Tidies c b vs m out) : Tidies c b vs (m.onErr (mlGcUnprotect n)) out :=
  h.onErr fun _ hs => hs.unprotect n

theorem andThen_restore {n : Nat} (h : Tidies c b vs m out) : Tidies c b vs (m.andThen (mlGcRestore n)) out :=
  h.andThen fun _ _ _ hs => hs.restore n

theorem andThen_unprotect {n : Nat} (h : Tidies c b vs m out) : Tidies c b vs (m.andThen (mlGcUnprotect n)) out :=
  h.andThen fun _ _ _ hs => hs.unprotect n

theorem raise {line column : Nat} {message : Bytes} {e : Status} :
    Tidies c b vs (Microlisp.raise line column message e : ML α) out :=
  seq (modify fun _ hs => hs.of_eq rfl fun _ hv => hv) fun _ => fail

theorem savepoint {f : Nat → ML β} (h : ∀ n, Tidies c b vs (f n) res) : Tidies c b vs (mlGcSavepoint >>= f) res :=
  seq (reads .gets) h

/-- A field of an object. -/
theorem field {k : Obj → ML α} (h : ∀ o, Tidies c 0 (o.refs ++ vs) (k o) out) : Tidies c 0 vs (asObj v >>= k) out := by
  apply Triple.bind (Q := fun o t => t.Ctx c 0 (o.refs ++ vs))
  · intro t ht
    apply wp_mono (asObj_wp False.elim) _ fun _ _ h => h
    rintro o u ⟨rfl, a, rfl, ha⟩
    exact ht.add (ht.heap.fit a o ha) fun _ _ => Val.since_zero
  · intro o
    apply (h o).conseq (fun _ h => h) _ fun _ _ h => h
    intro a t ht
    exact ht.weaken fun v hv => .inl (by rcases List.mem_append.1 hv with hv | hv <;> simp [hv])

theorem car : Tidies c 0 vs (Microlisp.car v) fun a => [a] := by
  apply field
  intro o
  cases o with
  | pair a d => exact known (.head (by simp [Obj.refs]))
  | _ => exact stuck

theorem cdr : Tidies c 0 vs (Microlisp.cdr v) fun d => [d] := by
  apply field
  intro o
  cases o with
  | pair a d => exact known (.head (by simp [Obj.refs]))
  | _ => exact stuck

theorem closureFields : Tidies c 0 vs (Microlisp.closureFields v) fun cl => [cl.env, cl.params, cl.body] := by
  apply field
  intro o
  cases o with
  | closure e p b va n => exact pure fun v hv => .head (by simpa [Obj.refs] using hv)
  | _ => exact stuck

theorem gcProtectGet {i : Nat} : Tidies c 0 vs (Microlisp.gcProtectGet i) fun v => [v] := by
  apply Triple.bind (Q := fun o s => s.Ctx c 0 vs ∧ ∀ v, o = some v → v ∈ s.gcProtect)
  · exact Triple.gets fun s hs => ⟨hs, fun v hv => List.mem_of_getElem? hv⟩
  · intro o
    cases o with
    | none => exact Triple.stuck fun _ _ => id
    | some v =>
      apply Triple.pure
      rintro s ⟨hs, hv⟩
      apply hs.add _ fun _ _ => Val.since_zero
      intro w hw
      rw [List.mem_singleton.1 hw]
      exact hs.protect v (hv v rfl)

/-! ## Memory -/

theorem rawAllocOrFail {size : Nat} : Tidies c b vs (Microlisp.rawAllocOrFail c size) fun _ => [] := by
  intro s hs
  apply wp_mono rawAllocOrFail_wp
  · intro _ t ht
    rw [ht]
    exact hs.of_eq rfl fun _ hv => hv
  · rintro e t ⟨-, -, ht⟩
    rw [ht]
    exact hs.toTidy.of_eq rfl fun _ hv => hv

theorem mlGcProtect (hv : v.Known vs) : Tidies c b vs (Microlisp.mlGcProtect c v) fun _ => [] := by
  intro s hs
  apply wp_mono mlGcProtect_wp
  · intro _ t ht
    rw [ht]
    exact (hs.push hv).of_eq rfl fun _ hw => hw
  · rintro e t ⟨-, -, ht⟩
    rw [ht]
    exact hs.toTidy.of_eq rfl fun _ hv => hv

theorem maybeCollect : Tidies c b vs (Microlisp.maybeCollect c) fun _ => [] := by
  refine seq (reads .gets) fun due => ite ?_ none
  intro s hs
  have hM : Watches tidyMode Heap.Tidy := ⟨fun _ => id, fun _ => trivial, trivial, trivial, fun _ hh => hh, id, id⟩
  apply wp_mono (mlGcCollect_shrunk hM fun h hn hsub => hs.heap.shrink hn hsub) _ fun _ _ h => h
  intro _ t ht
  exact hs.collect ht.next ht.sub (by rw [ht.same])

theorem linkObject {o : Obj} (ho : ∀ v ∈ o.refs, v.Known vs) : Tidies c b vs (Microlisp.linkObject o) fun v => [v] := by
  intro s hs
  have hheap : (s.heap.alloc o).Tidy := hs.heap.alloc fun v hv => hs.known (ho v hv)
  apply wp_mono (linkObject_wp hheap) _ fun _ _ h => h
  rintro v t ⟨rfl, rfl⟩
  exact hs.alloc ho

theorem gcAlloc {size : Nat} {o : Obj} (ho : ∀ v ∈ o.refs, v.Known vs) :
    Tidies c b vs (Microlisp.gcAlloc c size o) fun v => [v] :=
  maybeCollect.seq fun _ => rawAllocOrFail.seq fun _ => linkObject ho

theorem mlGcAllocPair {a d : Val} (ha : a.Known vs) (hd : d.Known vs) :
    Tidies c b vs (Microlisp.mlGcAllocPair c a d) fun v => [v] := by
  apply gcAlloc
  intro v hv
  rcases List.mem_pair.1 hv with rfl | rfl
  · exact ha
  · exact hd

end Tidies
end Rules
end Microlisp
