import Microlisp.Lists
import Microlisp.Eval
import Microlisp.Tidy.Memory
/-!
# Walks end where no pairs form a cycle

The loops over the `cdr`s of a list have no bound in the source, and `ml_value_equal` and
the printer recur on the parts of a pair. In a heap whose pairs form no cycle all of them
end by themselves.
-/
namespace Microlisp

open Prog

section Walks
variable {h : Heap} {v w : Val} {n : Nat}

/-- A handle of a pair leads along an edge to each handle the pair holds. -/
theorem Heap.pairEdge {a b : Nat} {x y : Val} (hp : h.get a = some (.pair x y)) (hb : .obj b ∈ [x, y]) (hpos : 0 < b) :
    h.PairEdge a b :=
  ⟨x, y, hp, List.mem_filterMap.2 ⟨_, hb, Val.ptr_eq_some.2 ⟨rfl, hpos⟩⟩⟩

/-- To prove something of every value, prove it of a pair from its two parts. -/
theorem Heap.pair_induct {P : Val → Prop} (hr : Ranked h.PairEdge) (hend : ∀ v, h.Ends v → P v)
    (hpair : ∀ v a d, h.Has v (.pair a d) → P a → P d → P v) (v : Val) : P v := by
  have hobj : ∀ a, 0 < a → P (.obj a) := by
    intro a
    apply hr.induct (P := fun a => 0 < a → P (.obj a))
    intro a ih _
    have hpart : ∀ x y, h.get a = some (.pair x y) → ∀ v ∈ [x, y], P v := by
      intro x y hp v hv
      cases v with
      | obj b =>
        by_cases hb : 0 < b
        · exact ih b (Heap.pairEdge hp hv hb) hb
        · apply hend
          rintro a d ⟨_, ⟨⟩, ho⟩
          exact hb (Heap.lt_next_of_get ho).1
      | _ => exact hend _ (by rintro a d ⟨_, ⟨⟩, _⟩)
    by_cases hp : ∃ x y, h.get a = some (.pair x y)
    · obtain ⟨x, y, hp⟩ := hp
      exact hpair _ x y ⟨a, rfl, hp⟩ (hpart x y hp x (by simp)) (hpart x y hp y (by simp))
    · apply hend
      rintro x y ⟨_, ⟨⟩, ho⟩
      exact hp ⟨x, y, ho⟩
  cases v with
  | obj a =>
    by_cases ha : 0 < a
    · exact hobj a ha
    · apply hend
      rintro x y ⟨_, ⟨⟩, ho⟩
      exact ha (Heap.lt_next_of_get ho).1
  | _ => exact hend _ (by rintro a d ⟨_, ⟨⟩, _⟩)

/-- Every value starts a list that ends, within as many cells as there are addresses. -/
theorem Heap.exists_spine (hr : Ranked h.PairEdge) (v : Val) : ∃ n w, h.Spine v n w ∧ h.Ends w ∧ n < h.next := by
  have hspine : ∃ n w, h.Spine v n w ∧ h.Ends w := by
    apply Heap.pair_induct hr (P := fun v => ∃ n w, h.Spine v n w ∧ h.Ends w)
    · exact fun v hv => ⟨0, v, .nil, hv⟩
    · rintro v a d hp - ⟨n, w, hs, hw⟩
      exact ⟨n + 1, w, .cons hp hs, hw⟩
  obtain ⟨n, w, hs, hw⟩ := hspine
  exact ⟨n, w, hs, hw, hs.lt_next hw⟩

/-! ## Loops -/

variable {s : State}

/-- A run that must not run out of fuel does not. -/
theorem ne_timeout {α : Type} {m : ML α} {Q : α → State → Prop} {E : Status → State → Prop}
    (hw : wp Mode.ending m s Q E) :
    (m s).res ≠ .error .timeout := by
  have hk := (hw fun _ _ => id).2
  intro hr
  rw [hr] at hk
  exact hk trivial

theorem asked_nothing {p : Prop} : Mode.ending (ω := Event).safe → p := False.elim

/-- An error is an end. -/
theorem raise_ends {α : Type} {line column : Nat} {message : Bytes} {e : Status} {Q : α → State → Prop} :
    wp Mode.ending (raise line column message e : ML α) s Q (fun _ _ => True) :=
  wp_bind (wp_modify (wp_fail trivial))

theorem walkList_ends {k bound : Nat} {E : Status → State → Prop} (hr : Ranked s.heap.PairEdge)
    (hb : s.heap.next < bound) :
    wp Mode.ending (walkList bound v k) s (fun _ t => t = s) E := by
  obtain ⟨n, w, hs, hw, hn⟩ := Heap.exists_spine hr v
  exact wp_mono (walkList_total hs hw asked_nothing (by omega)) (fun _ _ h => h.1) fun _ _ h => h

theorem properListLength_ends (hr : Ranked s.heap.PairEdge) : (properListLength v s).res ≠ .error .timeout := by
  apply ne_timeout (Q := fun _ _ => True) (E := fun _ _ => False)
  apply wp_bind (wp_gets (wp_seq (walkList_ends hr (Nat.lt_succ_self _)) _))
  exact fun _ _ _ => wp_pure trivial

theorem primLength_ends (hr : Ranked s.heap.PairEdge) : (primLength [v] s).res ≠ .error .timeout := by
  apply ne_timeout (Q := fun _ _ => True) (E := fun _ _ => True)
  apply wp_bind (wp_pure _)
  apply wp_bind (wp_gets (wp_seq (walkList_ends hr (Nat.lt_succ_self _)) _))
  rintro r t rfl
  apply wp_ite
  · exact fun _ => raise_ends
  · intro _
    apply wp_ite
    · exact fun _ => raise_ends
    · exact fun _ => makeFix_wp trivial trivial

theorem closureArity_ends (hr : Ranked s.heap.PairEdge) : (closureArity v s).res ≠ .error .timeout := by
  have hloop : ∀ v n w, s.heap.Spine v n w → s.heap.Ends w → ∀ bound k, n < bound →
      wp Mode.ending (closureArityLoop bound v k) s (fun _ _ => True) (fun _ _ => True) := by
    intro v n w hs hw
    induction hs with
    | @nil v =>
      intro bound k hb
      obtain ⟨bound, rfl⟩ := Nat.exists_eq_add_of_lt hb
      apply wp_seq (mlIsPair_wp asked_nothing)
      rintro b t ⟨rfl, hb⟩
      apply wp_ite
      · intro hpair
        obtain ⟨⟨a, d⟩, ho⟩ := hb.1 hpair
        exact absurd ho (hw a d)
      · intro _
        apply wp_ite fun _ => wp_pure trivial
        intro _
        apply wp_ite fun _ => wp_pure trivial
        exact fun _ => raise_ends
    | @cons v a d w n ho hd ih =>
      intro bound k hb
      obtain ⟨bound, rfl⟩ := Nat.exists_eq_add_of_lt hb
      apply wp_seq (mlIsPair_wp asked_nothing)
      rintro b t ⟨rfl, hb⟩
      apply wp_ite
      · intro _
        apply wp_seq (car_wp asked_nothing)
        rintro param t ⟨rfl, -⟩
        apply wp_ite fun _ => raise_ends
        intro _
        apply wp_seq (cdr_wp asked_nothing)
        rintro d' t ⟨rfl, a', ho'⟩
        cases ho.unique ho'
        exact ih hw _ _ (by omega)
      · exact fun hpair => absurd (hb.2 ⟨(a, d), ho⟩) hpair
  obtain ⟨n, w, hs, hw, hn⟩ := Heap.exists_spine hr v
  exact ne_timeout (wp_bind (wp_gets (hloop v n w hs hw _ _ (by omega))))

/-! ## Recursion -/

/-- From every state with the heap `h`, the run of `m` ends, and leaves the heap as it is. -/
def Halts {α : Type} (h : Heap) (m : ML α) : Prop :=
  Triple Mode.ending (fun s => s.heap = h) m (fun _ s => s.heap = h) (fun _ s => s.heap = h)

namespace Halts

variable {α β : Type} {m : ML α} {f : α → ML β}

theorem bind (hm : Halts h m) (hf : ∀ a, Halts h (f a)) : Halts h (m >>= f) := Triple.bind hm hf

theorem ite {p : Prop} [Decidable p] {m' : ML α} (hm : Halts h m) (hm' : Halts h m') : Halts h (if p then m else m') :=
  Triple.ite (fun _ => hm) fun _ => hm'

theorem pure {a : α} : Halts h (Pure.pure a : ML α) := Triple.pure fun _ hs => hs

theorem fail {e : Status} : Halts h (Prog.fail e : ML α) := Triple.fail fun _ hs => hs

theorem gets {g : State → α} : Halts h (Prog.gets g) := Triple.gets fun _ hs => hs

theorem modify {g : State → State} (hg : ∀ s, (g s).heap = s.heap) : Halts h (Prog.modify g) :=
  Triple.modify fun s hs => (hg s).trans hs

theorem onErr {g : State → State} (hm : Halts h m) (hg : ∀ s, (g s).heap = s.heap) : Halts h (m.onErr g) :=
  Triple.onErr (Triple.conseq hm (fun _ hs => hs) (fun _ _ hs => hs) fun _ s hs => (hg s).trans hs)

theorem andThen {g : State → State} (hm : Halts h m) (hg : ∀ s, (g s).heap = s.heap) : Halts h (m.andThen g) :=
  Triple.andThen (Triple.conseq hm (fun _ hs => hs) (fun _ s hs => (hg s).trans hs) fun _ s hs => (hg s).trans hs)

theorem raise {line column : Nat} {message : Bytes} {e : Status} :
    Halts h (Microlisp.raise line column message e : ML α) :=
  .bind (.modify fun _ => rfl) fun _ => .fail

/-- What looks at the state, and may only get stuck. -/
theorem looks {Q : α → State → Prop} (hm : ∀ s, wp Mode.ending m s (fun a t => t = s ∧ Q a s) (fun _ _ => False)) :
    Halts h m :=
  fun s hs => wp_mono (hm s) (fun _ _ ht => ht.1 ▸ hs) fun _ _ hf => hf.elim

theorem test {p : Obj → Bool} : Halts h (isObjType p v) := looks fun _ => isObjType_wp asked_nothing

theorem stringBytes : Halts h (Microlisp.stringBytes v) := looks fun _ => stringBytes_wp asked_nothing

theorem primFields : Halts h (Microlisp.primFields v) := looks fun _ => primFields_wp asked_nothing

/-- What the heap says of the part that is read is known to what follows. -/
theorem look {Q : α → Heap → Prop} (hm : ∀ s, wp Mode.ending m s (fun a t => t = s ∧ Q a s.heap) (fun _ _ => False))
    (hf : ∀ a, Q a h → Halts h (f a)) : Halts h (m >>= f) := by
  intro s hs
  apply wp_bind (wp_mono (hm s) _ fun _ _ hf => hf.elim)
  rintro a t ⟨rfl, ha⟩
  exact hf a (hs ▸ ha) t hs

theorem isPair {f : Bool → ML β} (hf : ∀ b, (b = true ↔ ∃ x : Val × Val, h.Has v (.pair x.1 x.2)) → Halts h (f b)) :
    Halts h (mlIsPair v >>= f) :=
  look (Q := fun b h => b = true ↔ ∃ x : Val × Val, h.Has v (.pair x.1 x.2)) (fun _ => mlIsPair_wp asked_nothing) hf

theorem car {f : Val → ML β} (hf : ∀ a, (∃ d, h.Has v (.pair a d)) → Halts h (f a)) : Halts h (Microlisp.car v >>= f) :=
  look (Q := fun a h => ∃ d, h.Has v (.pair a d)) (fun _ => car_wp asked_nothing) hf

theorem cdr {f : Val → ML β} (hf : ∀ d, (∃ a, h.Has v (.pair a d)) → Halts h (f d)) : Halts h (Microlisp.cdr v >>= f) :=
  look (Q := fun d h => ∃ a, h.Has v (.pair a d)) (fun _ => cdr_wp asked_nothing) hf

/-- The value is known not to be a pair. -/
theorem notPair {f : Bool → ML β} (hv : h.Ends v) (hf : Halts h (f false)) : Halts h (mlIsPair v >>= f) := by
  apply Halts.isPair
  intro b hb
  cases b with
  | true =>
    obtain ⟨⟨a, d⟩, ho⟩ := hb.1 rfl
    exact absurd ho (hv a d)
  | false => exact hf

/-- The value is known to be a pair. -/
theorem hasPair {f : Bool → ML β} {a d : Val} (hv : h.Has v (.pair a d)) (hf : Halts h (f true)) :
    Halts h (mlIsPair v >>= f) := by
  apply Halts.isPair
  intro b hb
  cases b with
  | true => exact hf
  | false => exact absurd (hb.2 ⟨(a, d), hv⟩) Bool.false_ne_true

theorem carOf {f : Val → ML β} {a d : Val} (hv : h.Has v (.pair a d)) (hf : Halts h (f a)) :
    Halts h (Microlisp.car v >>= f) := by
  apply Halts.car
  rintro a' ⟨d', hv'⟩
  cases hv.unique hv'
  exact hf

theorem cdrOf {f : Val → ML β} {a d : Val} (hv : h.Has v (.pair a d)) (hf : Halts h (f d)) :
    Halts h (Microlisp.cdr v >>= f) := by
  apply Halts.cdr
  rintro d' ⟨a', hv'⟩
  cases hv.unique hv'
  exact hf

theorem mlValueEqv : Halts h (Microlisp.mlValueEqv v w) := by
  apply Halts.ite .pure
  apply Halts.test.bind
  intro _
  apply Halts.ite _ .pure
  apply Halts.test.bind
  intro _
  exact .ite (.bind .stringBytes fun _ => .bind .stringBytes fun _ => .pure) .pure

end Halts

/-- Comparing two values takes no more nested calls than the first value has levels. -/
theorem valueEqual_halts (hr : Ranked h.PairEdge) (v : Val) : ∃ N, ∀ c n w, N ≤ n → Halts h (valueEqual c n v w) := by
  apply Heap.pair_induct hr (P := fun v => ∃ N, ∀ c n w, N ≤ n → Halts h (valueEqual c n v w))
  · intro v hv
    refine ⟨1, fun c n w hn => ?_⟩
    obtain ⟨n, rfl⟩ := Nat.exists_eq_add_of_le' hn
    exact .bind .gets fun depth => .ite .raise (.bind .mlValueEqv fun _ => .ite .pure (.notPair hv .pure))
  · rintro v a d ho ⟨Na, hNa⟩ ⟨Nd, hNd⟩
    refine ⟨max Na Nd + 1, fun c n w hn => ?_⟩
    obtain ⟨n, rfl⟩ := Nat.exists_eq_add_of_le' (Nat.le_trans (Nat.le_add_left 1 _) hn)
    refine .bind .gets fun depth => .ite .raise (.bind .mlValueEqv fun _ => .ite .pure ?_)
    refine .bind .test fun _ => .ite .pure (.bind .test fun _ => .ite .pure ?_)
    refine .carOf ho (.car fun carB _ => .bind (.modify fun _ => rfl) fun _ => ?_)
    refine .bind ((hNa c n carB (by omega)).onErr fun _ => rfl) fun carEq => ?_
    refine .ite (.bind (.modify fun _ => rfl) fun _ => .pure) (.cdrOf ho (.cdr fun cdrB _ => ?_))
    exact (hNd c n cdrB (by omega)).andThen fun _ => rfl

/-! ## Printing -/

section Printing
variable {β : Type} {out : Sink β} {user : β} (hout : ∀ user bytes, Halts h (out user bytes))
include hout

theorem emitTo_halts {bytes : Bytes} : Halts h (emitTo out user bytes) := .ite .pure (hout _ _)

theorem emitQuotedLoop_halts (bs run : Bytes) (user : β) : Halts h (emitQuotedLoop out bs run user) := by
  induction bs generalizing run user with
  | nil => exact emitTo_halts hout
  | cons b bs ih =>
    apply Halts.ite
    · exact .bind (emitTo_halts hout) fun _ => .bind (emitTo_halts hout) fun _ => ih _ _
    · exact ih _ _

theorem printString_halts {writeStyle : Bool} : Halts h (do
    let bytes ← stringBytes v
    if writeStyle then emitStringQuoted out user bytes else emitTo out user bytes) := by
  apply Halts.stringBytes.bind
  intro bytes
  apply Halts.ite _ (emitTo_halts hout)
  exact .bind (emitTo_halts hout) fun _ => .bind (emitQuotedLoop_halts hout _ _ _) fun _ => emitTo_halts hout

/-- What `print_value_inner` does with anything but a pair. -/
theorem printAtom_halts {printValue : Val → β → ML β} {writeStyle : Bool} (hv : h.Ends v) :
    Halts h (printValueInner out writeStyle printValue v user) := by
  have hobj : Halts h (printObject out writeStyle printValue v user) := by
    refine .bind .test fun _ => .ite (printString_halts hout) (.notPair hv ?_)
    refine .bind .test fun _ => .ite (.bind .primFields fun _ => emitTo_halts hout) ?_
    refine .bind .test fun _ => .ite (emitTo_halts hout) ?_
    exact .bind .test fun _ => .ite (emitTo_halts hout) (emitTo_halts hout)
  cases v with
  | fix p => exact emitTo_halts hout
  | imm i => cases i <;> exact emitTo_halts hout
  | sym i => exact .bind .gets fun _ => emitTo_halts hout
  | obj a => exact hobj
  | reserved w => exact hobj

/-- The loop of `print_pair_contents` ends from `v`, within a bound on the cells of its
spine. -/
def SpineHalts (h : Heap) (out : Sink β) (printValue : Val → β → ML β) (v : Val) : Prop :=
  ∀ k w bound user, h.Spine v k w → h.Ends w → k < bound → Halts h (printSpine out printValue bound v user)

omit hout in
theorem printPairContents_halts {printValue : Val → β → ML β} (hr : Ranked h.PairEdge) {a d : Val}
    (hv : h.Has v (.pair a d))
    (hcar : ∀ user, Halts h (printValue a user)) (hcdr : SpineHalts h out printValue d) :
    Halts h (printPairContents out printValue v user) := by
  refine .carOf hv (.bind (hcar user) fun user => .cdrOf hv ?_)
  obtain ⟨k, w, hs, hw, hk⟩ := Heap.exists_spine hr d
  apply Halts.look (Q := fun bound h => bound = h.next + 1) fun s => wp_gets ⟨rfl, rfl⟩
  rintro bound rfl
  exact hcdr k w _ user hs hw (by omega)

end Printing

/-- Printing a value takes no more nested calls than it has levels, and each loop over a
spine ends. -/
theorem printValue_halts {β : Type} {out : Config → Sink β} (hout : ∀ c user bytes, Halts h (out c user bytes))
    (hr : Ranked h.PairEdge) (v : Val) :
    ∃ N, ∀ c writeStyle n, N ≤ n → (∀ user, Halts h (printValue (out c) c writeStyle n v user)) ∧
      SpineHalts h (out c) (printValue (out c) c writeStyle n) v := by
  apply Heap.pair_induct hr (P := fun v => ∃ N, ∀ c writeStyle n, N ≤ n →
    (∀ user, Halts h (printValue (out c) c writeStyle n v user)) ∧
      SpineHalts h (out c) (printValue (out c) c writeStyle n) v)
  · intro v hv
    refine ⟨1, fun c writeStyle n hn => ?_⟩
    obtain ⟨n, rfl⟩ := Nat.exists_eq_add_of_le' hn
    have hprint : ∀ user, Halts h (printValue (out c) c writeStyle (n + 1) v user) := by
      intro user
      refine .bind .gets fun depth => .ite .raise (.bind (.modify fun _ => rfl) fun _ => ?_)
      exact (printAtom_halts (hout c) hv).andThen fun _ => rfl
    refine ⟨hprint, fun k w bound user _ _ hb => ?_⟩
    obtain ⟨bound, rfl⟩ := Nat.exists_eq_add_of_lt hb
    apply Halts.notPair hv
    rw [if_neg Bool.false_ne_true]
    exact .ite (.bind (emitTo_halts (hout c)) fun _ => hprint _) .pure
  · rintro v a d ho ⟨Na, hNa⟩ ⟨Nd, hNd⟩
    refine ⟨max Na Nd + 1, fun c writeStyle n hn => ⟨fun user => ?_, fun k w bound user hs hw hb => ?_⟩⟩
    · obtain ⟨n, rfl⟩ := Nat.exists_eq_add_of_le' (Nat.le_trans (Nat.le_add_left 1 _) hn)
      refine .bind .gets fun depth => .ite .raise (.bind (.modify fun _ => rfl) fun _ => ?_)
      have hobj : Halts h (printObject (out c) writeStyle (printValue (out c) c writeStyle n) v user) := by
        refine .bind .test fun _ => .ite (printString_halts (hout c)) (.hasPair ho ?_)
        apply (emitTo_halts (hout c)).bind
        intro user
        apply Halts.bind _ fun _ => emitTo_halts (hout c)
        exact printPairContents_halts hr ho (hNa c writeStyle n (by omega)).1 (hNd c writeStyle n (by omega)).2
      obtain ⟨x, rfl, -⟩ := id ho
      exact hobj.andThen fun _ => rfl
    · cases hs with
      | nil => exact absurd ho (hw a d)
      | @cons _ _ _ _ k ho' hd =>
        cases ho.unique ho'
        obtain ⟨bound, rfl⟩ := Nat.exists_eq_add_of_lt hb
        apply Halts.hasPair ho
        apply (emitTo_halts (hout c)).bind
        intro user
        refine .carOf ho (.bind ((hNa c writeStyle n (by omega)).1 user) fun user => .cdrOf ho ?_)
        exact (hNd c writeStyle n (by omega)).2 k w _ user hd hw (by omega)

end Walks
end Microlisp
