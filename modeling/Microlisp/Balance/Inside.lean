import Microlisp.Collect
import Microlisp.Specs
/-!
# What every call leaves alone

`At` describes a state inside a call that was entered at `s0`, when the call has
pushed `l` on the protect stack: the depth counters are as at entry, and what was
in the heap is unchanged but for the values of frames. Nothing is asked of `s0`:
this holds of any state, with any allocator, and of every way a call can end.
-/
namespace Microlisp

open Prog

/-! ## How the heap may change -/

/-- `o'` is `o`, or the same frame with other values and perhaps more names. -/
def Obj.Grows : Obj → Obj → Prop
  | .env p b _, o' => ∃ b' k', o' = .env p b' k' ∧ b.map Prod.fst <+: b'.map Prod.fst
  | o, o' => o' = o

theorem Obj.Grows.refl (o : Obj) : o.Grows o := by
  cases o with
  | env p b k => exact ⟨b, k, rfl, List.prefix_refl _⟩
  | _ => rfl

theorem Obj.Grows.trans {o o' o'' : Obj} (h : o.Grows o') (h' : o'.Grows o'') : o.Grows o'' := by
  cases o with
  | env p b k =>
    obtain ⟨b', k', rfl, hb⟩ := h
    obtain ⟨b'', k'', rfl, hb'⟩ := h'
    exact ⟨b'', k'', rfl, hb.trans hb'⟩
  | _ =>
    cases h
    exact h'

/-- From `h0`, the heap has become `h`. With collections disabled nothing is gone. -/
structure Heap.Ext (c : Config) (h0 h : Heap) : Prop where
  next : h0.next ≤ h.next
  old : ∀ a o', a < h0.next → h.get a = some o' → ∃ o, h0.get a = some o ∧ o.Grows o'
  alive : (∀ s, c.collectDue s = false) → ∀ a o, h0.get a = some o → ∃ o', h.get a = some o'

namespace Heap.Ext

variable {c : Config} {h0 h h' : Heap}

theorem refl : Ext c h h where
  next := Nat.le_refl _
  old := fun _ o _ ho => ⟨o, ho, .refl o⟩
  alive := fun _ _ o ho => ⟨o, ho⟩

theorem trans (hx : Ext c h0 h) (hx' : Ext c h h') : Ext c h0 h' where
  next := Nat.le_trans hx.next hx'.next
  old := by
    intro a o' ha ho
    obtain ⟨o₁, ho₁, hg⟩ := hx'.old a o' (Nat.lt_of_lt_of_le ha hx.next) ho
    obtain ⟨o₀, ho₀, hg₀⟩ := hx.old a o₁ ha ho₁
    exact ⟨o₀, ho₀, hg₀.trans hg⟩
  alive := by
    intro hn a o ho
    obtain ⟨o₁, ho₁⟩ := hx.alive hn a o ho
    exact hx'.alive hn a o₁ ho₁

theorem alloc (hx : Ext c h0 h) (o : Obj) : Ext c h0 (h.alloc o) where
  next := Nat.le_succ_of_le hx.next
  old := by
    intro a o' ha ho
    have := hx.next
    rw [get_alloc, if_neg (by omega)] at ho
    exact hx.old a o' ha ho
  alive := by
    intro hn a o' ho
    rw [get_alloc]
    split
    · exact ⟨o, rfl⟩
    · exact hx.alive hn a o' ho

/-- A write to an object made since, or one that grows a frame. -/
theorem set {a : Nat} {o : Obj} (hx : Ext c h0 h) (ha : a < h0.next → ∃ o', h.get a = some o' ∧ o'.Grows o) :
    Ext c h0 (h.set a o) where
  next := hx.next
  old := by
    intro b o' hb ho
    rw [get_set] at ho
    split at ho
    · rename_i hba
      obtain ⟨o₁, ho₁, hg⟩ := ha (hba ▸ hb)
      obtain ⟨o₀, ho₀, hg₀⟩ := hx.old a o₁ (hba ▸ hb) ho₁
      rw [hba, ho₁] at ho
      cases ho
      exact ⟨o₀, hba ▸ ho₀, hg₀.trans hg⟩
    · exact hx.old b o' hb ho
  alive := by
    intro hn b o' ho
    obtain ⟨o₁, ho₁⟩ := hx.alive hn b o' ho
    rw [get_set, ho₁]
    split <;> exact ⟨_, rfl⟩

/-- Objects go away in a collection only. -/
theorem shrink (hx : Ext c h0 h) (hnext : h'.next = h.next) (hsub : ∀ a o, h'.get a = some o → h.get a = some o)
    (hdue : ∃ s, c.collectDue s = true) : Ext c h0 h' where
  next := hnext ▸ hx.next
  old := fun a o ha ho => hx.old a o ha (hsub a o ho)
  alive := by
    intro hn
    obtain ⟨s, hs⟩ := hdue
    rw [hn] at hs
    cases hs

end Heap.Ext

/-! ## Inside a call -/

/-- The state inside a call entered at `s0`, or after one that failed. -/
structure State.Inside (c : Config) (s0 : State) (l : List Val) (t : State) : Prop where
  protect : t.gcProtect = s0.gcProtect ++ l
  evalDepth : t.evalDepth = s0.evalDepth
  printDepth : t.printDepth = s0.printDepth
  equalDepth : t.equalDepth = s0.equalDepth
  pending : t.pending = s0.pending
  heap : s0.heap.Ext c t.heap
  entries : s0.symtab.entries <+: t.symtab.entries

/-- No error has been recorded since. -/
structure State.At (c : Config) (s0 : State) (l : List Val) (t : State) : Prop extends State.Inside c s0 l t where
  lastError : t.lastError = s0.lastError

/-- How a call entered at `s0` is watched: whatever heap it records follows the one it found. -/
abbrev State.watch (c : Config) (s0 : State) : Mode Event := Mode.noting fun e => ∀ h, e = .heap h → s0.heap.Ext c h

/-- A call failed with one of the statuses in `S`. -/
def Fails (c : Config) (S : Status → Prop) (s0 : State) (l : List Val) (e : Status) (t : State) : Prop :=
  S e ∧ s0.Inside c l t

theorem State.At.refl {c : Config} {s : State} : s.At c [] s where
  protect := (List.append_nil _).symm
  evalDepth := rfl
  printDepth := rfl
  equalDepth := rfl
  pending := rfl
  heap := .refl
  entries := List.prefix_refl _
  lastError := rfl

section Moves
variable {c : Config} {S : Status → Prop} {s0 t u : State} {l r : List Val}

/-- What only touches other fields keeps `At`. -/
theorem State.Inside.of_eq (h : s0.Inside c l t) (hu : u = { t with
    gcProtectCap := u.gcProtectCap, lastError := u.lastError, output := u.output, allocs := u.allocs,
      writes := u.writes,
    flushes := u.flushes, symtab := ⟨t.symtab.entries, u.symtab.capacity⟩ }) : s0.Inside c l u := by
  rw [hu]
  exact ⟨h.protect, h.evalDepth, h.printDepth, h.equalDepth, h.pending, h.heap, h.entries⟩

theorem State.Inside.push (h : s0.Inside c l t) (v : Val) :
    s0.Inside c (l ++ [v]) { t with gcProtect := t.gcProtect ++ [v] } :=
  { h with protect := by rw [h.protect, List.append_assoc] }

theorem State.Inside.restore (h : s0.Inside c (l ++ r) t) :
    s0.Inside c l (mlGcRestore (s0.gcProtect.length + l.length) t) := by
  have hp : (mlGcRestore (s0.gcProtect.length + l.length) t).gcProtect = s0.gcProtect ++ l := by
    rw [mlGcRestore, h.protect, ← List.append_assoc, ← List.length_append]
    exact List.take_left
  exact { h with protect := hp }

theorem State.Inside.unprotect (h : s0.Inside c (l ++ r) t) : s0.Inside c l (mlGcUnprotect r.length t) := by
  have hsub : t.gcProtect.length - r.length = s0.gcProtect.length + l.length := by
    rw [h.protect]
    simp only [List.length_append]
    omega
  rw [mlGcUnprotect, hsub]
  exact h.restore

theorem State.At.restore (h : s0.At c (l ++ r) t) :
    s0.At c l (mlGcRestore (s0.gcProtect.length + l.length) t) :=
  { h.toInside.restore with lastError := h.lastError }

theorem State.At.unprotect (h : s0.At c (l ++ r) t) : s0.At c l (mlGcUnprotect r.length t) :=
  { h.toInside.unprotect with lastError := h.lastError }

end Moves

/-! ## Collections, from any state -/

section Collections
variable {c : Config} {s t : State}

/-- What a collection may have done to `s`. -/
structure Shrunk (s t : State) : Prop where
  same : t = { s with
    heap := t.heap
    gcLiveObjects := t.gcLiveObjects
    gcThreshold := t.gcThreshold
    gcKept := t.gcKept
    gcMarklist := t.gcMarklist
    gcMarklistCap := t.gcMarklistCap
    allocs := t.allocs }
  next : t.heap.next = s.heap.next
  sub : ∀ a o, t.heap.get a = some o → s.heap.get a = some o

theorem Marking.shrunk (h : Marking s t) : Shrunk s t where
  same := by rw [h.same]
  next := h.next
  sub := by
    rw [Heap.get_of_bare h.bare]
    exact fun _ _ h => h

theorem Heap.get_sweep {h : Heap} {a : Nat} {o : Obj} (ho : h.sweep.get a = some o) : h.get a = some o := by
  obtain ⟨k, hk, rfl, rfl⟩ := Heap.get_eq_some.1 ho
  have hmem : k ∈ (h.cells.filter Cell.marked).map (fun o => { o with marked := false }) :=
    sweepList_fst h.cells ▸ hk
  obtain ⟨d, hd, rfl⟩ := List.mem_map.1 hmem
  exact Heap.get_eq_some.2 ⟨d, (List.mem_filter.1 hd).1, rfl, rfl⟩

theorem Marking.of_eq {u : State} (h : Marking s t) (hu : u = { t with
    gcMarklist := u.gcMarklist, gcMarklistCap := u.gcMarklistCap, allocs := u.allocs }) : Marking s u :=
  h.trans ⟨by rw [hu], by rw [hu], by rw [hu]⟩

/-- How runs are watched: none is excused, none has to end well, and a heap is accepted when
it meets `G`. -/
structure Watches (M : Mode Event) (G : Heap → Prop) : Prop where
  excused : ∀ e, ¬ M.excused e
  pushed : ∀ a, M.good (.pushed a)
  noRoom : M.good .noRoom
  lostFrame : M.good .lostFrame
  heap : ∀ h, G h → M.good (.heap h)
  safe : ¬ M.safe
  total : ¬ M.total

theorem watches_partly {G : Heap → Prop} : Watches Mode.partly G :=
  ⟨fun _ => id, fun _ => trivial, trivial, trivial, fun _ _ => trivial, id, id⟩

variable {M : Mode Event} {G : Heap → Prop}

theorem mlRawAlloc_marking {size : Nat} {E : Status → State → Prop} :
    Triple M (Marking s) (mlRawAlloc c size) (fun _ => Marking s) E := by
  unfold mlRawAlloc
  split
  · exact .pure fun _ h => h
  · exact .seq (.gets fun _ h => h) fun _ => .seq (.modify fun _ h => h.of_eq rfl) fun _ => .pure fun _ h => h

section Watched
variable (hM : Watches M G)
include hM

theorem gcPushMark_marking {o : Nat} {E : Status → State → Prop} :
    Triple M (Marking s) (gcPushMark c o) (fun _ => Marking s) E := by
  have hpush : ∀ room : Bool, Triple M (Marking s) (if room = true then do
      modify fun s => { s with gcMarklist := o :: s.gcMarklist }
      emit (.pushed o)
      pure true
    else do
      emit .noRoom
      pure false : ML Bool) (fun _ => Marking s) E := by
    intro room
    refine .ite (fun _ => ?_) (fun _ => ?_)
    · refine .seq (.modify fun _ h => h.of_eq rfl) fun _ => ?_
      exact .seq (.emit fun _ h _ => ⟨hM.pushed _, h⟩) fun _ => .pure fun _ h => h
    · exact .seq (.emit fun _ h _ => ⟨hM.noRoom, h⟩) fun _ => .pure fun _ h => h
  refine .seq (.gets fun _ h => h) fun _ => .seq (.gets fun _ h => h) fun _ => ?_
  refine .ite (fun _ => .seq mlRawAlloc_marking fun _ => ?_) (fun _ => .seq (.pure fun _ h => h) hpush)
  refine .ite (fun _ => ?_) (fun _ => .seq (.pure fun _ h => h) hpush)
  exact .seq (.modify fun _ h => h.of_eq rfl) fun _ => .seq (.pure fun _ h => h) hpush

theorem gcVisit_marking {v : Val} {E : Status → State → Prop} :
    Triple M (Marking s) (gcVisit c v) (fun _ => Marking s) E := by
  unfold gcVisit
  split
  · exact .pure fun _ h => h
  · refine .seq (.gets fun _ h => h) fun k => ?_
    cases k with
    | none => exact .stuck fun _ _ => hM.safe
    | some k =>
      refine .ite (fun _ => .pure fun _ h => h) (fun _ => .seq (.modify fun t h => ?_) fun _ => gcPushMark_marking hM)
      exact h.trans ⟨rfl, Heap.bare_mark, rfl⟩
  · exact .pure fun _ h => h

theorem gcVisitAll_marking {E : Status → State → Prop} (vs : List Val) :
    Triple M (Marking s) (gcVisitAll c vs) (fun _ => Marking s) E := by
  induction vs with
  | nil => exact .pure fun _ h => h
  | cons v vs ih => exact .seq (gcVisit_marking hM) fun _ => .ite (fun _ => ih) (fun _ => .pure fun _ h => h)

theorem gcDrainWorklist_marking {E : Status → State → Prop} (n : Nat) :
    Triple M (Marking s) (gcDrainWorklist c n) (fun _ => Marking s) E := by
  induction n with
  | zero => exact .timeout fun _ _ => hM.total
  | succ n ih =>
    refine .seq (.gets fun _ h => h) fun w => ?_
    cases w with
    | nil => exact .pure fun _ h => h
    | cons o rest =>
      refine .seq (.modify fun _ h => h.of_eq rfl) fun _ => .bind (Q := fun _ => Marking s) ?_ fun obj => ?_
      · exact fun t ht => wp_mono (readObj_wp fun h => absurd h hM.safe) (fun _ _ h => h.1 ▸ ht) fun _ _ h => h
      · exact .seq (gcVisitAll_marking hM obj.refs) fun _ => .ite (fun _ => ih) (fun _ => .pure fun _ h => h)

theorem mlGcCollect_shrunk {E : Status → State → Prop}
    (hG : ∀ h : Heap, h.next = s.heap.next → (∀ a o, h.get a = some o → s.heap.get a = some o) → G h) :
    wp M (mlGcCollect c) s (fun _ t => Shrunk s t) E := by
  have hend : ∀ ok : Bool, Triple M (Marking s) (if ok = true then do
      modify sweep
      modify fun s => { s with gcThreshold := nextThreshold s.gcLiveObjects, gcKept := some s.heap.cells.length }
      noteHeap
      notePending
    else do
      modify gcClearAllMarks
      modify fun s => { s with gcMarklist := [] } : ML Unit) (fun _ => Shrunk s) E := by
    intro ok t h
    cases ok with
    | true =>
      have hsub : ∀ a o, t.heap.sweep.get a = some o → s.heap.get a = some o :=
        fun a o ho => h.shrunk.sub a o (Heap.get_sweep ho)
      refine wp_bind (wp_modify (wp_bind (wp_modify (wp_seq (noteHeap_wp (hM.heap _ (hG _ h.next hsub))) ?_))))
      rintro _ _ rfl
      refine wp_mono (notePending_spec fun _ _ => hM.lostFrame) ?_ (fun _ _ h => h)
      rintro _ u ⟨rfl, -⟩
      refine ⟨?_, h.next, hsub⟩
      simp only [sweep]
      rw [h.same]
    | false =>
      refine wp_bind (wp_modify (wp_modify ?_))
      have hm : Marking s (gcClearAllMarks t) := h.trans ⟨rfl, Heap.bare_clearMarks, rfl⟩
      exact (hm.of_eq rfl).shrunk
  suffices h : Triple M (Marking s) (mlGcCollect c) (fun _ => Shrunk s) E from h s ⟨rfl, rfl, rfl⟩
  refine .seq (.modify fun _ h => h.of_eq rfl) fun _ => .seq (.gets fun _ h => h) fun _ => ?_
  refine .seq (.gets fun _ h => h) fun _ => .seq (gcVisitAll_marking hM _) fun ok => ?_
  exact .ite (fun _ => .seq (gcDrainWorklist_marking hM _) hend) (fun _ => .seq (.pure fun _ h => h) hend)

end Watched

end Collections

/-! ## Rules -/

section Rules
variable {c : Config} {S : Status → Prop} {s0 : State} {l r : List Val} {α β : Type} {m : ML α} {f : α → ML β}

/-- `m` leaves everything as it found it, whether it returns or fails with a status in `S`. -/
def Keeps (c : Config) (S : Status → Prop) (s0 : State) (l : List Val) (m : ML α) : Prop :=
  Triple (s0.watch c) (s0.At c l) m (fun _ => s0.At c l) (Fails c S s0 l)

theorem Keeps.bind (h : Keeps c S s0 l m) (hk : ∀ a, Keeps c S s0 l (f a)) : Keeps c S s0 l (m >>= f) :=
  Triple.seq h hk

theorem Keeps.ite {b : Prop} [Decidable b] {m' : ML α} (h : Keeps c S s0 l m) (h' : Keeps c S s0 l m') :
    Keeps c S s0 l (if b then m else m') :=
  Triple.ite (fun _ => h) (fun _ => h')

theorem Keeps.pure {a : α} : Keeps c S s0 l (Pure.pure a : ML α) := Triple.pure fun _ h => h

theorem Keeps.timeout : Keeps c S s0 l (Prog.timeout : ML α) := Triple.timeout fun _ _ => id

theorem Keeps.stuck : Keeps c S s0 l (Prog.stuck : ML α) := Triple.stuck fun _ _ => id

theorem Keeps.fail {e : Status} (he : S e) : Keeps c S s0 l (Prog.fail e : ML α) :=
  Triple.fail fun _ h => ⟨he, h.toInside⟩

theorem Keeps.reads (h : Reads m) : Keeps c S s0 l m := h.triple

theorem raise_fails {line column : Nat} {message : Bytes} {e : Status} {Q : α → State → Prop} (he : S e) :
    Triple (s0.watch c) (s0.At c l) (raise line column message e) Q (Fails c S s0 l) :=
  fun _ h => wp_bind (wp_modify (wp_fail ⟨he, h.toInside.of_eq rfl⟩))

theorem Keeps.raise {line column : Nat} {message : Bytes} {e : Status} (he : S e) :
    Keeps c S s0 l (Microlisp.raise line column message e : ML α) :=
  raise_fails he

theorem Keeps.modify {g : State → State} (hg : ∀ t, s0.At c l t → s0.At c l (g t)) :
    Keeps c S s0 l (Prog.modify g) :=
  Triple.modify hg

/-- Reading the height of the protect stack. -/
theorem savepoint_bind {f : Nat → ML β} {Q : β → State → Prop} {E : Status → State → Prop}
    (h : Triple (s0.watch c) (s0.At c l) (f (s0.gcProtect.length + l.length)) Q E) :
    Triple (s0.watch c) (s0.At c l) (mlGcSavepoint >>= f) Q E := by
  intro t ht
  refine wp_bind (wp_gets ?_)
  rw [ht.protect, List.length_append]
  exact h t ht

theorem restore_at : Triple (s0.watch c) (s0.At c (l ++ r))
    (Prog.modify (mlGcRestore (s0.gcProtect.length + l.length)) : ML Unit) (fun _ => s0.At c l) (Fails c S s0 l) :=
  .modify fun _ h => h.restore

/-- On an error, back to a savepoint, whatever has been pushed since. -/
theorem onErr_restore_from {P : State → Prop} {Q : α → State → Prop}
    (h : Triple (s0.watch c) P m Q (fun e t => ∃ r, Fails c S s0 (l ++ r) e t)) :
    Triple (s0.watch c) P (m.onErr (mlGcRestore (s0.gcProtect.length + l.length))) Q (Fails c S s0 l) :=
  .onErr (h.conseq (fun _ h => h) (fun _ _ h => h) (fun _ _ ⟨_, h⟩ => ⟨h.1, h.2.restore⟩))

theorem onErr_restore {P : State → Prop} {Q : α → State → Prop}
    (h : Triple (s0.watch c) P m Q (Fails c S s0 (l ++ r))) :
    Triple (s0.watch c) P (m.onErr (mlGcRestore (s0.gcProtect.length + l.length))) Q (Fails c S s0 l) :=
  onErr_restore_from (h.conseq (fun _ h => h) (fun _ _ h => h) (fun _ _ h => ⟨r, h⟩))

/-- In any case, back to a savepoint. -/
theorem andThen_restore (h : Triple (s0.watch c) (s0.At c (l ++ r)) m (fun _ => s0.At c (l ++ r))
      (Fails c S s0 (l ++ r))) :
    Triple (s0.watch c) (s0.At c (l ++ r)) (m.andThen (mlGcRestore (s0.gcProtect.length + l.length)))
      (fun _ => s0.At c l) (Fails c S s0 l) :=
  .andThen (h.conseq (fun _ h => h) (fun _ _ h => h.restore) (fun _ _ h => ⟨h.1, h.2.restore⟩))

theorem onErr_unprotect {P : State → Prop} {Q : α → State → Prop}
    (h : Triple (s0.watch c) P m Q (Fails c S s0 (l ++ r))) :
    Triple (s0.watch c) P (m.onErr (mlGcUnprotect r.length)) Q (Fails c S s0 l) :=
  .onErr (h.conseq (fun _ h => h) (fun _ _ h => h) (fun _ _ h => ⟨h.1, h.2.unprotect⟩))

theorem andThen_unprotect (h : Triple (s0.watch c) (s0.At c (l ++ r)) m (fun _ => s0.At c (l ++ r))
      (Fails c S s0 (l ++ r))) :
    Triple (s0.watch c) (s0.At c (l ++ r)) (m.andThen (mlGcUnprotect r.length))
      (fun _ => s0.At c l) (Fails c S s0 l) :=
  .andThen (h.conseq (fun _ h => h) (fun _ _ h => h.unprotect) (fun _ _ h => ⟨h.1, h.2.unprotect⟩))

/-- It is enough to look at the call from its own first state. -/
theorem Keeps.of_self (h : ∀ t, wp (t.watch c) m t (fun _ u => t.At c [] u) (Fails c S t [])) : Keeps c S s0 l m := by
  intro t ht
  refine wp_weaken (M := t.watch c) ?_ (fun _ h => h) (fun e he h hh => ht.heap.trans (he h hh)) id id
  have hinside : ∀ u, t.Inside c [] u → s0.Inside c l u := fun u hu =>
    ⟨by rw [hu.protect, ht.protect, List.append_nil], hu.evalDepth.trans ht.evalDepth,
      hu.printDepth.trans ht.printDepth, hu.equalDepth.trans ht.equalDepth, hu.pending.trans ht.pending,
      ht.heap.trans hu.heap, ht.entries.trans hu.entries⟩
  refine wp_mono (h t) (fun _ u hu => ?_) (fun _ u hu => ⟨hu.1, hinside u hu.2⟩)
  exact { hinside u hu.toInside with lastError := hu.lastError.trans ht.lastError }

/-! ## Memory -/

variable (hS : ∀ e, e ≠ .errEvalDepth → S e)
include hS

theorem rawAllocOrFail_keeps {size : Nat} : Keeps c S s0 l (rawAllocOrFail c size) := by
  intro t h
  refine wp_mono rawAllocOrFail_wp (fun _ u hu => ?_) ?_
  · rw [hu]
    exact { h.toInside.of_eq rfl with lastError := h.lastError }
  · rintro e u ⟨rfl, -, hu⟩
    exact ⟨hS _ (by decide), h.toInside.of_eq (by rw [hu])⟩

theorem mlGcProtect_at {v : Val} :
    Triple (s0.watch c) (s0.At c l) (mlGcProtect c v) (fun _ => s0.At c (l ++ [v])) (Fails c S s0 l) := by
  intro t h
  refine wp_mono mlGcProtect_wp (fun _ u hu => ?_) ?_
  · rw [hu]
    exact { (h.toInside.push v).of_eq rfl with lastError := h.lastError }
  · rintro e u ⟨rfl, -, hu⟩
    exact ⟨hS _ (by decide), h.toInside.of_eq (by rw [hu])⟩

omit hS in
theorem maybeCollect_keeps : Keeps c S s0 l (maybeCollect c) := by
  intro t ht
  refine wp_bind (wp_gets ?_)
  split
  · rename_i hdue
    have hM : Watches (s0.watch c) (s0.heap.Ext c) := ⟨fun _ => id, fun _ => nofun, nofun, nofun,
      fun h hh _ he => by cases he; exact hh, id, id⟩
    refine wp_mono (mlGcCollect_shrunk hM fun h hn hsub => ht.heap.shrink hn hsub ⟨t, hdue⟩) (fun _ u hu => ?_)
      (fun _ _ h => h)
    obtain ⟨hsame, hnext, hsub⟩ := hu
    rw [hsame] at hnext hsub ⊢
    exact { ht with heap := ht.heap.shrink hnext hsub ⟨t, hdue⟩ }
  · exact wp_pure ht

/-- A new object's address is at least `s0.heap.next`. -/
theorem gcAlloc_at {size : Nat} {o : Obj} :
    Triple (s0.watch c) (s0.At c l) (gcAlloc c size o)
      (fun v t => s0.At c l t ∧ ∃ a, v = .obj a ∧ s0.heap.next ≤ a) (Fails c S s0 l) := by
  refine .seq maybeCollect_keeps fun _ => .seq (rawAllocOrFail_keeps hS) fun _ => ?_
  intro t h
  refine wp_mono (linkObject_wp fun _ he => by cases he; exact h.heap.alloc o) ?_ (fun _ _ h => h)
  rintro v u ⟨rfl, rfl⟩
  exact ⟨{ h with heap := h.heap.alloc o }, _, rfl, h.heap.next⟩

theorem gcAlloc_keeps {size : Nat} {o : Obj} : Keeps c S s0 l (gcAlloc c size o) :=
  (gcAlloc_at hS).conseq (fun _ h => h) (fun _ _ h => h.1) (fun _ _ h => h)

end Rules
end Microlisp
