import Microlisp.Lockstep.Reader
import Microlisp.Transparent
/-!
# Memory does not show

A call is compared with the same call where memory is unbounded: the allocator grants every
request, and nothing is collected. Until an allocation fails, the two take the same steps.
-/
namespace Microlisp

open Prog

/-- The same interpreter with all the memory it asks for. -/
def Config.unbounded (c : Config) : Config := { c with alloc := fun _ _ => true, collectDue := fun _ => false }

/-- Which runs are not compared: those that a refused request stops, and those that read a taken
object. -/
def shortage (c : Config) (h : Halt Status) : Prop := h = .stuck ∨ h = .err .errNomem ∧ ∃ n size, c.alloc n size = false

section Shortage
variable {c : Config} {v : Val} {o : Obj} {size : Nat}

/-- The request of a size that is not zero. -/
theorem rawAllocOrFail_eq (hsize : size ≠ 0) : rawAllocOrFail c size = (do
    let n ← gets State.allocs
    modify fun s => { s with allocs := s.allocs + 1 }
    if c.alloc n size then pure () else fail .errNomem) := by
  unfold rawAllocOrFail mlRawAlloc
  rw [if_neg hsize]
  rfl

theorem rawAllocOrFail_unbounded :
    Sim (shortage c) (fun _ => False) Remains (rawAllocOrFail c size) (rawAllocOrFail c.unbounded size) := by
  by_cases hsize : size = 0
  · rw [hsize]
    exact (Sim.pure false).bind fun _ => .ite (fun _ => .pure _) fun _ => .fail _
  rw [rawAllocOrFail_eq hsize, rawAllocOrFail_eq hsize]
  have hcount : Sim (shortage c) (fun _ => False) Remains (modify fun s => { s with allocs := s.allocs + 1 } : ML Unit)
      (modify fun s => { s with allocs := s.allocs + 1 } : ML Unit) :=
      .modify fun s t h => ⟨h.clear, h.next, h.sub, by rw [h.same]⟩
  apply Sim.gets_bind
  intro s t h
  refine hcount.bind (fun _ => ?_) s t h
  intro s' t' h'
  cases hgrant : c.alloc s.allocs size with
  | true => exact simAt_pure h'
  | false => exact .inr ⟨rfl, _, _, hgrant⟩

theorem gcAlloc_unbounded :
    Sim (shortage c) (fun _ => False) Remains (gcAlloc c size o) (gcAlloc c.unbounded size o) := by
  have hlink : Sim (shortage c) (fun _ => False) Remains (linkObject o) (linkObject o) :=
    (Sim.gets fun s t h => h.next).bind fun _ => (Sim.modify fun s t h => h.alloc).bind fun _ =>
      noteHeap_sim.bind fun _ => .pure _
  have hrest : Sim (shortage c) (fun _ => False) Remains (rawAllocOrFail c size >>= fun _ => linkObject o)
      (rawAllocOrFail c.unbounded size >>= fun _ => linkObject o) := rawAllocOrFail_unbounded.bind fun _ => hlink
  have hright : gcAlloc c.unbounded size o = (rawAllocOrFail c.unbounded size >>= fun _ => linkObject o) := by
    funext t
    rfl
  rw [hright]
  intro s t h
  refine simAt_left (.inl rfl) (Q := fun _ u => Remains u t) ?_ fun _ u hu => hrest u t hu
  apply wp_bind
  apply wp_gets
  split
  · exact mlGcCollect_remains h
  · exact wp_pure h

theorem mlGcProtect_unbounded :
    Sim (shortage c) (fun _ => False) Remains (mlGcProtect c v) (mlGcProtect c.unbounded v) := by
  have hpush : Sim (shortage c) (fun _ => False) Remains
      (modify fun s => { s with gcProtect := s.gcProtect ++ [v] } : ML Unit)
      (modify fun s => { s with gcProtect := s.gcProtect ++ [v] } : ML Unit) :=
    .modify fun s t h => ⟨h.clear, h.next, h.sub, by rw [h.same]⟩
  apply (Sim.gets fun s t h => by rw [h.same]).bind
  intro count
  apply (Sim.gets fun s t h => by rw [h.same]).bind
  intro cap
  apply Sim.ite
  · intro _
    apply rawAllocOrFail_unbounded.bind
    intro _
    apply (Sim.modify fun s t h => ⟨h.clear, h.next, h.sub, by rw [h.same]⟩).bind
    exact fun _ => hpush
  · exact fun _ => hpush

/-- Calls go in lockstep until one of them has no memory. -/
theorem lockstep_memory : LockstepCall (shortage c) (fun _ => False) c c.unbounded (· = ·) Remains := by
  have h : LockstepEval stuckOnly (fun _ => False) .created Config.created.withoutCollections (· = ·) Remains :=
    lockstep_collections fun _ _ => rfl
  have hbl : ∀ x, stuckOnly x → shortage c x := fun _ => .inl
  exact {
    h with
    fwrite := rfl
    fflush := rfl
    maxReadDepth := .inl rfl
    maxPrintDepth := .inl rfl
    maxEqualDepth := .inl rfl
    maxEvalDepth := .inl rfl
    symQuote := rfl
    symIf := rfl
    symDefine := rfl
    symLambda := rfl
    symSetBang := rfl
    symLet := rfl
    symLetStar := rfl
    symLetrec := rfl
    symBegin := rfl
    symAnd := rfl
    symOr := rfl
    symCond := rfl
    symElse := rfl
    toplevelEnv := rfl
    readObj := fun a => (h.readObj a).weaken hbl
    writeObj := fun v o => (h.writeObj v o).weaken hbl
    getSlot := fun n n' hn => (h.getSlot n n' hn).weaken hbl
    gcAlloc := fun _ _ => gcAlloc_unbounded
    rawAlloc := fun _ => rawAllocOrFail_unbounded
    protect := fun _ => mlGcProtect_unbounded
    setSymtab := fun _ s t hR => ⟨hR.clear, hR.next, hR.sub, by rw [hR.same]⟩
    clearError := fun s t hR => ⟨hR.clear, hR.next, hR.sub, by rw [hR.same]; rfl⟩ }

end Shortage

/-- A run that has memory, and reads no taken object, ends as it does where memory is unbounded. -/
theorem Remains.of_enough {c : Config} {α : Type} {m m' : ML α} {s t : State}
    (h : SimAt (shortage c) (fun _ => False) Remains m m' s t)
    (hstuck : (m s).res ≠ .error .stuck) (hmem : (m s).res = .error (.err .errNomem) →
    ∀ n size, c.alloc n size = true) :
    (m s).res = (m' t).res ∧ Remains (m s).state (m' t).state := by
  have hleft : ∀ x, (m s).res = .error x → ¬ shortage c x := by
    rintro x hx (rfl | ⟨rfl, n, size, hn⟩)
    · exact hstuck hx
    · rw [hmem hx] at hn
      cases hn
  unfold SimAt Run.Sim at h
  cases hr : (m s).res with
  | ok a => cases hr' : (m' t).res with
    | ok b =>
      simp only [hr, hr'] at h
      exact ⟨by rw [h.1], h.2⟩
    | error y => simp only [hr, hr'] at h
  | error x => cases hr' : (m' t).res with
    | ok b =>
      simp only [hr, hr'] at h
      exact absurd h (hleft x hr)
    | error y =>
      simp only [hr, hr', false_or] at h
      obtain ⟨rfl, hR⟩ := h.resolve_left (hleft x hr)
      exact ⟨rfl, hR⟩

end Microlisp
