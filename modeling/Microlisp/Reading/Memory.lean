import Microlisp.Balance.Reader
import Microlisp.Datum
/-!
# What the reader keeps

A read starts between two evaluations. What it has rooted stays whatever is collected, and
what it makes are pairs and strings, so it may overwrite a pair of its own: no closure was
made since, and none leads into what is new.
-/
namespace Microlisp

open Prog

/-- A state in which a form can be read. -/
structure State.Ready (c : Config) (s : State) : Prop where
  wf : s.WellFormed c
  /-- No evaluation is under way. -/
  pending : s.pending = []
  /-- The index of a symbol has 28 bits. -/
  table : s.symtab.entries.length ≤ 0x10000000
  quote : s.Shows (fun _ => False) (.sym (ascii "quote")) c.symQuote

/-- `u` follows `s` with `l` pushed since, and with data allocated. -/
structure State.Reads (c : Config) (s : State) (l : List Val) (u : State) : Prop where
  good : s.Good c l u
  table : u.symtab.entries.length ≤ 0x10000000
  data : ∀ a o, s.heap.next ≤ a → u.heap.get a = some o → o.isData = true

/-- Runs of the reader are judged in full; `P` says whether they must end. -/
abbrev readMode (P : Prop) : Mode Event := ⟨fun _ => False, fun _ => True, True, P⟩

theorem counts_read {P : Prop} : Counts (readMode P) := ⟨fun _ _ => trivial, fun _ _ _ => trivial⟩

section Reads
variable {c : Config} {s t u w : State} {l r : List Val} {v : Val} {K : Nat → Prop} {d : Datum}

theorem State.Reads.refl (hs : s.Ready c) : s.Reads c [] s where
  good := .refl hs.wf
  table := hs.table
  data := fun _ _ ha ho => absurd (Heap.lt_next_of_get ho).2 (Nat.not_lt.2 ha)

/-- Where only the bookkeeping has changed. -/
theorem State.Reads.of_good (hs : s.Ready c) (h : s.Good c l u) (hheap : u.heap = s.heap)
    (htable : u.symtab = s.symtab) :
    s.Reads c l u where
  good := h
  table := htable ▸ hs.table
  data := fun _ _ ha ho => absurd (Heap.lt_next_of_get (hheap ▸ ho)).2 (Nat.not_lt.2 ha)

theorem State.Reads.ready (h : s.Reads c l u) (hs : s.Ready c) : u.Ready c where
  wf := h.good.wf
  pending := h.good.reached.pending.trans hs.pending
  table := h.table
  quote := hs.quote.transfer (fun _ _ hf => hf.elim) h.good.reached.entries fun _ hf _ => hf

theorem State.Reads.trans (h : s.Reads c l u) (h' : u.Reads c r w) : s.Reads c (l ++ r) w where
  good := h.good.trans h'.good
  table := h'.table
  data := by
    intro a o ha ho
    by_cases hnew : u.heap.next ≤ a
    · exact h'.data a o hnew ho
    · obtain ⟨o', ho', hg⟩ := h'.good.reached.heap.old a o (Nat.lt_of_not_le hnew) ho
      have hdata := h.data a o' ha ho'
      rwa [hg.eq (by cases o' <;> simp_all [Obj.isData, Obj.isPair, Obj.isString, Obj.isEnv])]

theorem State.Reads.seq (h : s.Reads c l u) (h' : u.Reads c [] w) : s.Reads c l w := by
  simpa using h.trans h'

theorem State.Reads.next_le (h : s.Reads c l u) : s.heap.next ≤ u.heap.next := h.good.reached.heap.next

theorem State.Reads.restore (h : s.Reads c (l ++ r) u) : s.Reads c l (mlGcRestore (s.gcProtect.length + l.length) u) :=
  ⟨h.good.restore, h.table, h.data⟩

theorem State.Reads.unprotect (h : s.Reads c (l ++ r) u) : s.Reads c l (mlGcUnprotect r.length u) :=
  ⟨h.good.unprotect, h.table, h.data⟩

/-- What is rooted shows its datum from kept objects alone. -/
theorem State.shows_kept (hv : s.Shows K d v) (hk : v.In (s.Kept c)) : s.Shows (fun a => K a ∧ s.Kept c a) d v := by
  induction d generalizing v with
  | fix x => exact hv
  | nil => exact hv
  | bool b => exact hv
  | sym name => exact hv
  | str bytes =>
    obtain ⟨a, rfl, hka, ho⟩ := hv
    exact ⟨a, rfl, ⟨hka, hk a rfl⟩, ho⟩
  | pair x y ihx ihy =>
    obtain ⟨a, p, q, rfl, hka, ho, hx, hy⟩ := hv
    have hhas : s.heap.Has (.obj a) (.pair p q) := ⟨a, rfl, ho⟩
    exact ⟨a, p, q, rfl, ⟨hka, hk a rfl⟩, ho, ihx hx (State.kept_field hk hhas (by simp [Obj.fixedRefs])),
      ihy hy (State.kept_field hk hhas (by simp [Obj.fixedRefs]))⟩

/-- A rooted pair or string stays. -/
theorem State.Good.get {a : Nat} {o : Obj} (h : s.Good c l u) (hk : s.Kept c a) (ho : s.heap.get a = some o)
    (hne : o.isEnv = false) : u.heap.get a = some o := by
  obtain ⟨_, ⟨⟩, ho'⟩ := h.agree.has_eq (v := .obj a) (fun _ hb => by cases hb; exact hk) ⟨a, rfl, ho⟩ hne
  exact ho'

/-- What is rooted still shows its datum later on. -/
theorem State.Good.shows (h : s.Good c l u) (hv : s.Shows K d v) (hk : v.In (s.Kept c)) : u.Shows K d v := by
  apply (State.shows_kept hv hk).transfer _ h.reached.entries fun a ha _ => ha.1
  intro a o ha ho hdata
  exact h.get ha.2 ho (by cases o <;> simp_all [Obj.isData, Obj.isPair, Obj.isString, Obj.isEnv])

end Reads

/-! ## Allocation -/

section Memory
variable {c : Config} {P : Prop} {s t u : State} {l : List Val} {v : Val} {o : Obj}

theorem rawAllocOrFail_reads {size : Nat} (hs : s.Ready c) :
    wp (readMode P) (rawAllocOrFail c size) s (fun _ u => s.Reads c [] u ∧ u.heap = s.heap ∧ u.symtab = s.symtab)
      (fun e _ => e = .errNomem) := by
  apply wp_mono rawAllocOrFail_wp
  · intro _ u hu
    have hgood : s.Good c [] u := by
      rw [hu]
      exact ⟨{ State.At.refl with }, hs.wf.of_eq rfl (fun _ h => h) fun _ h => h⟩
    have hheap : u.heap = s.heap := by rw [hu]
    have htable : u.symtab = s.symtab := by rw [hu]
    exact ⟨.of_good hs hgood hheap htable, hheap, htable⟩
  · exact fun e u he => he.1

theorem mlGcProtect_reads (hs : s.Ready c) (hv : s.heap.ValOk v) :
    wp (readMode P) (mlGcProtect c v) s (fun _ u => s.Reads c [v] u ∧ u.heap = s.heap ∧ u.symtab = s.symtab)
      (fun e _ => e = .errNomem) := by
  have hprotect : wp (readMode P) (mlGcProtect c v) s (fun _ u => s.Good c [v] u ∧ u.heap = s.heap) (fun _ _ => True) :=
    wp_mono (mlGcProtect_safe hs.wf (.inl hv)) (fun _ _ h => h) fun _ _ _ => trivial
  have hexact : wp (Mode.noting fun _ => True) (mlGcProtect c v) s (fun _ u => u.symtab = s.symtab)
      (fun e _ => e = .errNomem) :=
    wp_mono mlGcProtect_wp (fun _ u hu => by rw [hu]) fun _ _ h => h.1
  apply wp_mono (wp_and hexact hprotect)
  · exact fun _ u hu => ⟨.of_good hs hu.2.1 hu.2.2 hu.1, hu.2.2, hu.1⟩
  · exact fun _ _ h => h.1

theorem maybeCollect_reads {E : Status → State → Prop} (hs : s.Ready c) :
    wp (readMode P) (maybeCollect c) s (fun _ u => s.Reads c [] u ∧ u.heap.next = s.heap.next) E := by
  have hcollect : wp (readMode P) (maybeCollect c) s
      (fun _ u => u.WellFormed c ∧ u.symtab = s.symtab ∧ u.heap.next = s.heap.next ∧
        ∀ a o, u.heap.get a = some o → s.heap.get a = some o) (fun _ _ => False) := by
    apply wp_bind (wp_gets _)
    split
    · have hM : Collects (readMode P) := ⟨fun _ => trivial, trivial, fun _ => trivial⟩
      apply wp_mono (mlGcCollect_spec hM (fun _ _ => trivial) hs.wf.clear fun _ => hs.wf.sound) _ fun _ _ h => h
      rintro _ u (⟨hu, -⟩ | ⟨hu, -⟩)
      · have hp : ∀ v ∈ s.pending, frameLost u v = false := by simp [hs.pending]
        exact ⟨hu.wellFormed hs.wf hp, by rw [hu.same], hu.next, fun a o ho => (hu.get.1 ho).1⟩
      · rw [hu]
        exact ⟨hs.wf.of_eq rfl (fun _ h => h) fun _ h => h, rfl, rfl, fun _ _ ho => ho⟩
    · exact wp_pure ⟨hs.wf, rfl, rfl, fun _ _ ho => ho⟩
  have hat := maybeCollect_keeps (c := c) (S := fun _ => True) (l := []) s .refl
  apply wp_mono (wp_and hat hcollect) _ fun _ _ h => h.2.elim
  rintro _ u ⟨hu, hwf, htable, hnext, hsub⟩
  refine ⟨⟨⟨hu, hwf⟩, by rw [htable]; exact hs.table, fun a o ha ho => ?_⟩, hnext⟩
  exact absurd (Heap.lt_next_of_get (hsub a o ho)).2 (Nat.not_lt.2 ha)

/-- A new pair or string. Its address is the next one. -/
theorem gcAlloc_reads {size : Nat} (hs : s.Ready c) (hok : s.heap.ObjOk o) (hdata : o.isData = true)
    (hrefs : ∀ v ∈ o.refs, v.In (s.Kept c)) :
    wp (readMode P) (gcAlloc c size o) s (fun v u => s.Reads c [] u ∧ v = .obj s.heap.next ∧
      u.heap.get s.heap.next = some o ∧
      u.heap.next = s.heap.next + 1) (fun e _ => e = .errNomem) := by
  apply wp_seq (maybeCollect_reads hs)
  rintro _ t ⟨ht, hnext⟩
  apply wp_seq (rawAllocOrFail_reads (ht.ready hs))
  rintro _ u ⟨hu, hheap, -⟩
  have hu' : s.Reads c [] u := ht.seq hu
  rw [← hnext, ← hheap] at *
  apply wp_mono (linkObject_wp (E := fun _ _ => False) trivial) _ fun _ _ h => h.elim
  rintro _ w ⟨rfl, rfl⟩
  have hok' := hu'.good.agree.objOk hrefs hok
  refine ⟨⟨⟨{ hu'.good.reached with heap := hu'.good.reached.heap.alloc o }, ?_⟩, hu'.table, ?_⟩, rfl, ?_, rfl⟩
  · exact (hu'.good.wf.alloc hok').of_eq rfl (fun _ h => h) fun _ h => h
  · intro a o' ha ho
    rw [Heap.get_alloc] at ho
    split at ho
    · cases ho
      exact hdata
    · exact hu'.data a o' ha ho
  · rw [Heap.get_alloc, if_pos rfl]

end Memory
end Microlisp
