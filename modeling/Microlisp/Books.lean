import Microlisp.Lockstep.Upheld
import Microlisp.Transcript
/-!
# The collector keeps its books

`gc_live_objects` counts the objects, and the protect stack stays within its array. With an
allocator that grants every request, `gc_threshold` is the first one until a collection sets it to
twice what it keeps, and the heap stays within it, as long as doubling fits a `size_t`.
-/
namespace Microlisp

open Prog

/-- Between two steps: no mark is set, the count is right, the worklist is empty, and nothing has
grown beyond its array. -/
structure State.Booked (s : State) : Prop where
  clear : s.heap.Clear
  live : s.gcLiveObjects = s.heap.cells.length
  marklist : s.gcMarklist = []
  protect : s.gcProtect.length ≤ s.gcProtectCap
  message : s.lastError.message.length ≤ 255

/-- The threshold once the last collection has kept so many objects, or none has run to its end. -/
def thresholdAfter (first : Nat) (kept : Option Nat) : Nat := kept.elim first nextThreshold

/-- The threshold is `first`, or what the last collection sets for the objects that it kept, of which
there are no more than there are objects now. The objects do not outnumber it; a threshold that
reached half of `size_t` says nothing, as twice as many objects may not fit. -/
structure State.Within (first : Nat) (s : State) : Prop extends s.Booked where
  room : s.heap.cells.length ≤ s.gcThreshold ∨ 2 ^ 63 ≤ s.gcThreshold
  threshold : s.gcThreshold = thresholdAfter first s.gcKept
  kept : ∀ k, s.gcKept = some k → k ≤ s.heap.cells.length

theorem cells_set {h : Heap} {a : Nat} {o : Obj} : (h.set a o).cells.length = h.cells.length := by
  simp [Heap.set, Heap.mapCells]

theorem Heap.Clear.alloc {h : Heap} {o : Obj} (hc : h.Clear) : (h.alloc o).Clear := by
  intro k hk
  rcases List.mem_cons.1 hk with rfl | hk
  · rfl
  · exact hc k hk

theorem Heap.Clear.set {h : Heap} {a : Nat} {o : Obj} (hc : h.Clear) : (h.set a o).Clear := by
  intro k hk
  obtain ⟨d, hd, rfl⟩ := List.mem_map.1 hk
  have := hc d hd
  split <;> exact this

/-- A threshold has room for one object more than the collection kept, up to `size_t`. -/
theorem lt_nextThreshold (kept : Nat) : kept + 1 ≤ nextThreshold kept ∨ 2 ^ 63 ≤ nextThreshold kept := by
  unfold nextThreshold sizeMax
  dsimp only
  split <;> split <;> omega

section Books
variable {c : Config} {s t : State} {first : Nat} {o : Obj} {v : Val} {size : Nat}

theorem Collected.booked (h : Collected c s t) (hs : s.Booked) : t.Booked := by
  refine ⟨?_, ?_, ?_, ?_, ?_⟩
  · intro k hk
    rw [h.cells] at hk
    exact hs.clear k (List.mem_filter.1 hk).1
  · rw [h.same]
  · rw [h.same]
  · rw [h.same]
    exact hs.protect
  · rw [h.same]
    exact hs.message

theorem Aborted.booked (h : Aborted s t) (hs : s.Booked) : t.Booked := by
  rw [h]
  exact { hs with marklist := rfl }

theorem maybeCollect_booked (hs : s.Booked) :
    wp Mode.partly (maybeCollect c) s
      (fun _ t => t.Booked ∧ ((c.collectDue s = false ∧ t = s) ∨ Collected c s t ∨
        (Aborted s t ∧ ∃ n size, c.alloc n size = false)))
      fun _ _ => False := by
  apply wp_bind
  apply wp_gets
  cases hdue : c.collectDue s with
  | false => exact wp_pure ⟨hs, .inl ⟨rfl, rfl⟩⟩
  | true =>
    apply wp_mono (mlGcCollect_spec ⟨fun _ => trivial, trivial, fun _ => trivial⟩
      (fun _ _ => trivial) hs.clear False.elim)
      _ fun _ _ h => h
    rintro _ t (⟨ht, -⟩ | ⟨ht, hrefused⟩)
    · exact ⟨ht.booked hs, .inr (.inl ht)⟩
    · exact ⟨ht.booked hs, .inr (.inr ⟨ht, hrefused⟩)⟩

theorem State.Booked.link (hs : s.Booked) :
    State.Booked { s with heap := s.heap.alloc o, gcLiveObjects := s.gcLiveObjects + 1 } :=
  { hs with
    clear := hs.clear.alloc
    live := congrArg (· + 1) hs.live }

theorem State.Booked.of_allocs (hs : s.Booked) {k : Nat} : State.Booked { s with allocs := k } := { hs with }

theorem gcAlloc_booked (hs : s.Booked) : wp Mode.partly (gcAlloc c size o) s (fun _ t => t.Booked)
    fun _ t => t.Booked := by
  apply wp_seq (wp_mono (maybeCollect_booked hs) (fun _ _ h => h.1) fun _ _ h => h.elim)
  intro _ t ht
  have hraw : wp Mode.partly (rawAllocOrFail c size) t (fun _ u => u.Booked) fun _ u => u.Booked :=
    wp_mono rawAllocOrFail_wp (fun _ _ hu => hu ▸ ht.of_allocs) fun _ _ hu => hu.2.2 ▸ ht.of_allocs
  apply wp_seq hraw
  intro _ u hu
  apply wp_mono (linkObject_wp trivial) _ fun _ _ h => h
  rintro _ w ⟨-, rfl⟩
  exact hu.link

/-- A push that does not fit doubles the array first. -/
theorem mlGcProtect_fits (hs : s.gcProtect.length ≤ s.gcProtectCap) : wp Mode.partly (mlGcProtect c v) s
    (fun _ t => t = { s with gcProtect := s.gcProtect ++ [v], gcProtectCap := t.gcProtectCap, allocs := t.allocs } ∧
      s.gcProtect.length + 1 ≤ t.gcProtectCap)
    fun _ t => t = { s with allocs := t.allocs } := by
  apply wp_bind
  apply wp_gets
  apply wp_bind
  apply wp_gets
  apply wp_ite
  · intro hfull
    apply wp_seq (wp_mono rawAllocOrFail_wp (fun _ _ h => h) fun _ _ h => h.2.2)
    intro _ t ht
    apply wp_bind
    apply wp_modify
    apply wp_modify
    rw [ht]
    refine ⟨rfl, ?_⟩
    dsimp only
    split <;> omega
  · intro hroom
    apply wp_modify
    exact ⟨rfl, by dsimp only; omega⟩

theorem upheld_booked : Upheld c State.Booked where
  writeObj := fun a o s hs => { hs with
    clear := hs.clear.set
    live := hs.live.trans cells_set.symm }
  gcAlloc := fun size o s hs => gcAlloc_booked hs
  protect := by
    intro v s hs
    apply wp_mono (mlGcProtect_fits hs.protect)
    · rintro _ t ⟨ht, hcap⟩
      rw [ht]
      exact { hs with protect := by simpa using hcap }
    · intro _ t ht
      rw [ht]
      exact hs.of_allocs
  restore := fun n s hs => { hs with
    protect := Nat.le_trans (by simp [mlGcRestore]) hs.protect }
  unprotect := fun n s hs => { hs with
    protect := Nat.le_trans (by simp [mlGcUnprotect]) hs.protect }
  setSlot := fun n v s hs => { hs with
    protect := by simpa [gcProtectSet] using hs.protect }
  setError := fun l k message s hs => { hs with
    message := by simp [mlSetError] }
  clearError := fun s hs => { hs with
    message := Nat.zero_le _ }
  others := by
    intro s t hs ht
    rw [ht]
    exact { hs with }

/-! ## The threshold -/

theorem State.Within.of_booked (hs : s.Within first) (ht : t.Booked) (hheap : t.heap.cells.length = s.heap.cells.length)
    (hthreshold : t.gcThreshold = s.gcThreshold) (hkept : t.gcKept = s.gcKept) : t.Within first :=
  { ht with
    room := by rw [hheap, hthreshold]; exact hs.room
    threshold := by rw [hthreshold, hkept]; exact hs.threshold
    kept := by rw [hheap, hkept]; exact hs.kept }

variable (hdue : c.collectDue = State.gcDue) (hgrants : ∀ n size, c.alloc n size = true)
include hdue hgrants

/-- After the collection that was due, if one was, there is room for another object. -/
theorem maybeCollect_within (hs : s.Within first) : wp Mode.partly (maybeCollect c) s
    (fun _ t => t.Within first ∧ (t.heap.cells.length + 1 ≤ t.gcThreshold ∨ 2 ^ 63 ≤ t.gcThreshold))
    fun _ _ => False := by
  apply wp_mono (maybeCollect_booked hs.toBooked) _ fun _ _ h => h
  rintro _ t ⟨ht, ⟨hnot, rfl⟩ | hcollected | ⟨-, n, size, hrefused⟩⟩
  · refine ⟨hs, .inl ?_⟩
    rw [hdue, State.gcDue, Bool.or_eq_false_iff, decide_eq_false_iff_not] at hnot
    have hlive := ht.live
    omega
  · have hkept : t.gcKept = some t.heap.cells.length := by rw [hcollected.same]
    have hthreshold : t.gcThreshold = nextThreshold t.heap.cells.length := by rw [hcollected.same]
    have hroom : t.heap.cells.length + 1 ≤ t.gcThreshold ∨ 2 ^ 63 ≤ t.gcThreshold := by
      rw [hthreshold]
      exact lt_nextThreshold _
    refine ⟨{ ht with room := hroom.imp_left Nat.le_of_succ_le, threshold := ?_, kept := ?_ }, hroom⟩
    · rw [hthreshold, hkept]
      rfl
    · intro k hk
      rw [hkept] at hk
      cases hk
      exact Nat.le_refl _
  · rw [hgrants] at hrefused
    cases hrefused

theorem gcAlloc_within (hs : s.Within first) :
    wp Mode.partly (gcAlloc c size o) s (fun _ t => t.Within first) fun _ t => t.Within first := by
  apply wp_seq (wp_mono (maybeCollect_within hdue hgrants hs) (fun _ _ h => h) fun _ _ h => h.elim)
  rintro _ t ⟨ht, hroom⟩
  have hbooked : t.Booked := ht.toBooked
  have hrefused : ∀ k, State.Within first { t with allocs := k } := fun k =>
    ht.of_booked hbooked.of_allocs rfl rfl rfl
  apply wp_seq (wp_mono rawAllocOrFail_wp (fun _ _ h => h) fun _ u hu => hu.2.2 ▸ hrefused u.allocs)
  intro _ u hu
  apply wp_mono (linkObject_wp trivial) _ fun _ _ h => h
  rintro _ w ⟨-, rfl⟩
  rw [hu]
  exact { hbooked.of_allocs.link with
    room := hroom
    threshold := ht.threshold
    kept := fun k hk => Nat.le_succ_of_le (ht.kept k hk) }

theorem upheld_within : Upheld c (State.Within first) where
  writeObj := fun a o s hs => hs.of_booked (upheld_booked.writeObj (c := c) a o s hs.toBooked) cells_set rfl rfl
  gcAlloc := fun size o s hs => gcAlloc_within hdue hgrants hs
  protect := by
    intro v s hs
    apply wp_mono (wp_and (wp_weaken (mlGcProtect_fits hs.protect) (fun _ h => h) (fun _ _ => trivial) id id)
      (upheld_booked.protect v s hs.toBooked))
    · rintro _ t ⟨⟨ht, -⟩, hbooked⟩
      exact hs.of_booked hbooked (by rw [ht]) (by rw [ht]) (by rw [ht])
    · rintro e t ⟨ht, hbooked⟩
      exact hs.of_booked hbooked (by rw [ht]) (by rw [ht]) (by rw [ht])
  restore := fun n s hs => hs.of_booked (upheld_booked.restore (c := c) n s hs.toBooked) rfl rfl rfl
  unprotect := fun n s hs => hs.of_booked (upheld_booked.unprotect (c := c) n s hs.toBooked) rfl rfl rfl
  setSlot := fun n v s hs => hs.of_booked (upheld_booked.setSlot (c := c) n v s hs.toBooked) rfl rfl rfl
  setError := fun l k message s hs =>
    hs.of_booked (upheld_booked.setError (c := c) l k message s hs.toBooked) rfl rfl rfl
  clearError := fun s hs => hs.of_booked (upheld_booked.clearError (c := c) s hs.toBooked) rfl rfl rfl
  others := fun s t hs ht => hs.of_booked (upheld_booked.others (c := c) s t hs.toBooked ht) (by rw [ht])
    (by rw [ht]) (by rw [ht])

end Books

/-! ## Every state of a session -/

section Sessions
variable {c : Config} {s t : State} {log : List (Request × Outcome)} {events : List Event} {p : Platform}
  {opts : Option Options} {outState : Bool} {I : State → Prop}

/-- What every step upholds holds after any calls. -/
theorem Upheld.transcript (h : Upheld c I) (ht : Transcript c s log events t) (hs : I s) : I t := by
  induction ht with
  | start => exact hs
  | call ht n q ho ih => exact h.call ih ho

theorem State.Bare.booked (hs : s.Bare) : s.Booked := by
  have hheap : s.heap = Heap.empty.alloc (.env mvNil [] 0) := by rw [hs]; rfl
  have hempty : Heap.empty.Clear := by
    intro k hk
    cases hk
  refine ⟨?_, ?_, ?_, ?_, ?_⟩
  · rw [hheap]
    exact hempty.alloc
  all_goals rw [hs]
  · rfl
  · rfl
  · exact Nat.le_refl 0
  · exact Nat.zero_le 255

/-- Whatever was asked of the state, and with whatever status each call returned, the books of the
collector are right and the arrays have not been overrun. -/
theorem transcript_booked (hcreate : microlispStateCreate p opts outState = .ok (c, s))
    (h : Transcript c s log events t) :
    t.Booked := by
  obtain ⟨b, hb, -, hends, hs⟩ := (microlispStateCreate_built hcreate).installed
  have hstart : s.Booked := hs ▸ upheld_booked.install hb.booked hends
  exact upheld_booked.transcript h hstart

theorem transcript_booked_list : (listRequest.run (.fresh scarce) 9 (.fresh scarce)).state.Booked :=
  transcript_booked microlispStateCreate_scarce (transcript_list (by decide +kernel))

/-- With an allocator that grants every request, after any calls that return, `gc_threshold` is what it
was at first until a collection runs, and from then on twice what the last one kept, but at least 4096
and at most the largest `size_t`; the objects outnumber it only once it has reached 2^63. -/
theorem transcript_within (hcreate : microlispStateCreate p opts outState = .ok (c, s))
    (hgrants : ∀ n size, c.alloc n size = true) (h : Transcript c s log events t) :
    t.Within (State.zeroed opts).gcThreshold := by
  have hbuilt := microlispStateCreate_built hcreate
  have hdue : c.collectDue = State.gcDue := by
    rw [hbuilt.config]
    rfl
  obtain ⟨b, hb, hfirst, hends, hs⟩ := hbuilt.installed
  have hbare : b.Within (State.zeroed opts).gcThreshold := { hb.booked with
    room := by
      have hone : b.heap.cells.length = 1 := by rw [hb]; rfl
      have hpos : (State.zeroed opts).gcThreshold ≠ 0 := limit_ne_zero (by decide)
      exact .inl (by omega)
    threshold := by rw [hb]; exact hfirst
    kept := fun k hk => by rw [hb] at hk; cases hk }
  have hstart : s.Within (State.zeroed opts).gcThreshold := hs ▸ (upheld_within hdue hgrants).install hbare hends
  exact (upheld_within hdue hgrants).transcript h hstart

end Sessions

/-- A collection as soon as there is an object, and the platform's allocator. -/
def eager : Option Options := some ⟨none, 0, 0, 0, 0, 1⟩

theorem microlispStateCreate_eager : microlispStateCreate plenty eager true = .ok (.fresh eager, .fresh eager) :=
  microlispStateCreate_eq rfl rfl rfl (by decide +kernel)

theorem transcript_within_list :
    (State.fresh eager).gcThreshold = 4096 ∧ (listRequest.run (.fresh eager) 9 (.fresh eager)).state.Within 1 :=
  ⟨by decide +kernel,
    transcript_within microlispStateCreate_eager (fun _ _ => rfl) (transcript_list (by decide +kernel))⟩

end Microlisp
