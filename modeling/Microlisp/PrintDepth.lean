import Microlisp.Trees
/-!
# How deep the printer goes

`print_value` counts its nested calls. The loop over a spine makes its calls one after
another, so a list takes one level, however long it is. With a sink that never fails, the
printer ends with an error exactly when the tree has more levels than the limit allows.
-/
namespace Microlisp

open Prog

/-- In the heap `h`, the printer is at depth `k`. -/
structure Heap.AtLevel (h : Heap) (k : Nat) (s : State) : Prop where
  heap : s.heap = h
  level : s.printDepth = k

/-- A sink that never fails, and leaves the objects and the depth of the printer alone. -/
def Sink.Accepts {β : Type} (out : Sink β) : Prop :=
  ∀ user bytes s, (∃ user', (out user bytes s).res = .ok user') ∧ (out user bytes s).state.heap = s.heap ∧
    (out user bytes s).state.printDepth = s.printDepth

/-- At depth `k`, `m` returns if `p` holds, and else finds that the printer is too deep. It
leaves the depth as it was. -/
def Prints {α : Type} (h : Heap) (k : Nat) (p : Prop) (m : ML α) : Prop :=
  Triple Mode.fully (h.AtLevel k) m (fun _ t => h.AtLevel k t ∧ p) fun e t => h.AtLevel k t ∧ e = .errPrintDepth ∧ ¬ p

namespace Prints

variable {h : Heap} {k n : Nat} {p q : Prop} {v w : Val} {α β : Type} {m m' : ML α} {f : α → ML β}

theorem pure {a : α} : Prints h k True (Pure.pure a : ML α) := Triple.pure fun _ hs => ⟨hs, trivial⟩

theorem raise {line column : Nat} {message : Bytes} (hp : ¬ p) :
    Prints h k p (Microlisp.raise line column message .errPrintDepth : ML α) := by
  intro s hs
  exact wp_bind (wp_modify (wp_fail ⟨⟨hs.heap, hs.level⟩, rfl, hp⟩))

theorem bind (hm : Prints h k p m) (hf : ∀ a, Prints h k q (f a)) : Prints h k (p ∧ q) (m >>= f) := by
  intro s hs
  apply wp_bind
  apply wp_mono (hm s hs)
  · rintro a t ⟨ht, hp⟩
    apply wp_mono (hf a t ht)
    · exact fun b u ⟨hu, hq⟩ => ⟨hu, hp, hq⟩
    · exact fun e u ⟨hu, he, hq⟩ => ⟨hu, he, fun hpq => hq hpq.2⟩
  · exact fun e t ⟨ht, he, hp⟩ => ⟨ht, he, fun hpq => hp hpq.1⟩

theorem iff (hm : Prints h k p m) (hpq : p ↔ q) : Prints h k q m := by
  rw [← hpq]
  exact hm

/-- After something that is always printed. -/
theorem next (hm : Prints h k True m) (hf : ∀ a, Prints h k q (f a)) : Prints h k q (m >>= f) :=
  (hm.bind hf).iff (and_iff_right trivial)

theorem ite {c : Prop} [Decidable c] (hm : c → Prints h k p m) (hm' : ¬ c → Prints h k p m') :
    Prints h k p (if c then m else m') := Triple.ite hm hm'

/-- What looks at the heap. -/
theorem look {Q : α → Heap → Prop}
    (hm : ∀ s, s.heap = h → wp Mode.fully m s (fun a t => t = s ∧ Q a s.heap) (fun _ _ => False))
    (hf : ∀ a, Q a h → Prints h k p (f a)) : Prints h k p (m >>= f) := by
  intro s hs
  apply wp_bind (wp_mono (hm s hs.heap) _ fun _ _ hf => hf.elim)
  rintro a t ⟨rfl, ha⟩
  exact hf a (hs.heap ▸ ha) t hs

theorem gets {g : State → α} (hf : ∀ a, Prints h k p (f a)) : Prints h k p (Prog.gets g >>= f) :=
  look (Q := fun _ _ => True) (fun _ _ => wp_gets ⟨rfl, trivial⟩) fun a _ => hf a

/-- A test of a value that may be a handle. -/
theorem test {b : Obj → Bool} {f : Bool → ML β} (hv : h.Holds v)
    (hf : ∀ r, (r = true ↔ ∃ o, h.Has v o ∧ b o = true) → Prints h k p (f r)) :
    Prints h k p (isObjType b v >>= f) :=
  look (Q := fun r h => r = true ↔ ∃ o, h.Has v o ∧ b o = true) (fun _ hs => isObjType_wp fun _ => hs ▸ hv) hf

/-- The value is known to be, or not to be, a pair. -/
theorem isPair {a d : Val} {f : Bool → ML β} (ho : h.Has v (.pair a d)) (hf : Prints h k p (f true)) :
    Prints h k p (mlIsPair v >>= f) := by
  apply test
  · rintro x rfl -
    obtain ⟨_, ⟨⟩, hx⟩ := ho
    exact ⟨_, hx⟩
  · intro r hr
    rw [hr.2 ⟨_, ho, rfl⟩]
    exact hf

theorem notPair {f : Bool → ML β} (hends : h.Ends v) (hv : h.Holds v) (hf : Prints h k p (f false)) :
    Prints h k p (mlIsPair v >>= f) := by
  apply test hv
  intro r hr
  cases r with
  | false => exact hf
  | true =>
    obtain ⟨o, ho, hpair⟩ := hr.1 rfl
    cases o with
    | pair a d => exact absurd ho (hends a d)
    | _ => cases hpair

theorem car {a d : Val} {f : Val → ML β} (ho : h.Has v (.pair a d)) (hf : Prints h k p (f a)) :
    Prints h k p (Microlisp.car v >>= f) := by
  apply look (Q := fun x h => ∃ d, h.Has v (.pair x d)) fun _ hs => car_wp fun _ => ⟨a, d, hs ▸ ho⟩
  rintro x ⟨d', ho'⟩
  cases ho.unique ho'
  exact hf

theorem cdr {a d : Val} {f : Val → ML β} (ho : h.Has v (.pair a d)) (hf : Prints h k p (f d)) :
    Prints h k p (Microlisp.cdr v >>= f) := by
  apply look (Q := fun x h => ∃ a, h.Has v (.pair a x)) fun _ hs => cdr_wp fun _ => ⟨a, d, hs ▸ ho⟩
  rintro x ⟨a', ho'⟩
  cases ho.unique ho'
  exact hf

end Prints

/-! ## Atoms -/

section Printing
variable {h : Heap} {k n : Nat} {v w : Val} {β : Type} {out : Sink β} {user : β} (hout : out.Accepts)
include hout

theorem emitTo_prints {bytes : Bytes} : Prints h k True (emitTo out user bytes) := by
  apply Prints.ite
  · exact fun _ => .pure
  · intro _ s hs _
    obtain ⟨⟨user', hres⟩, hheap, hlevel⟩ := hout user bytes s
    refine ⟨fun _ _ => trivial, ?_⟩
    rw [hres]
    exact ⟨⟨hheap.trans hs.heap, hlevel.trans hs.level⟩, trivial⟩

theorem emitQuotedLoop_prints (bs run : Bytes) (user : β) : Prints h k True (emitQuotedLoop out bs run user) := by
  induction bs generalizing run user with
  | nil => exact emitTo_prints hout
  | cons b bs ih =>
    apply Prints.ite
    · exact fun _ => .next (emitTo_prints hout) fun _ => .next (emitTo_prints hout) fun _ => ih _ _
    · exact fun _ => ih _ _

theorem emitStringQuoted_prints {bytes : Bytes} : Prints h k True (emitStringQuoted out user bytes) :=
  .next (emitTo_prints hout) fun _ => .next (emitQuotedLoop_prints hout _ _ _) fun _ => emitTo_prints hout

/-- What `print_value_inner` does with anything but a pair. -/
theorem printAtom_prints {printValue : Val → β → ML β} {writeStyle : Bool} (hends : h.Ends v) (hv : h.Holds v) :
    Prints h k True (printValueInner out writeStyle printValue v user) := by
  have hobj : Prints h k True (printObject out writeStyle printValue v user) := by
    apply Prints.test hv
    intro isString hstring
    apply Prints.ite
    · intro hs
      obtain ⟨o, ho, hs⟩ := hstring.1 hs
      obtain ⟨bytes, rfl⟩ : ∃ bytes, o = .string bytes := by
        cases o <;> first | exact ⟨_, rfl⟩ | cases hs
      apply Prints.look (Q := fun _ _ => True)
      · intro s hs
        exact wp_mono (stringBytes_wp fun _ => ⟨bytes, hs ▸ ho⟩) (fun _ _ ht => ⟨ht.1, trivial⟩) fun _ _ hf => hf
      · exact fun _ _ => .ite (fun _ => emitStringQuoted_prints hout) fun _ => emitTo_prints hout
    intro _
    apply Prints.notPair hends hv
    apply Prints.test hv
    intro isPrim hprim
    apply Prints.ite
    · intro hp
      obtain ⟨o, ho, hp⟩ := hprim.1 hp
      obtain ⟨prim, rfl⟩ := Obj.isPrim_iff.1 hp
      apply Prints.look (Q := fun _ _ => True)
      · intro s hs
        exact wp_mono (primFields_wp fun _ => ⟨prim, hs ▸ ho⟩) (fun _ _ ht => ⟨ht.1, trivial⟩) fun _ _ hf => hf
      · exact fun _ _ => emitTo_prints hout
    intro _
    apply Prints.test hv
    intro _ _
    apply Prints.ite fun _ => emitTo_prints hout
    intro _
    apply Prints.test hv
    intro _ _
    exact .ite (fun _ => emitTo_prints hout) fun _ => emitTo_prints hout
  cases v with
  | fix p => exact emitTo_prints hout
  | imm i => cases i <;> exact emitTo_prints hout
  | sym i => exact .gets fun _ => emitTo_prints hout
  | obj a => exact hobj
  | reserved w => exact hobj

/-! ## Pairs -/

omit hout in
/-- A call of the printer: one level down, and back. -/
theorem printValue_prints {c : Config} {writeStyle : Bool} {p : Prop} (hk : ¬ k < c.maxPrintDepth → ¬ p)
    (hinner : k < c.maxPrintDepth →
    Prints h (k + 1) p (printValueInner out writeStyle (printValue out c writeStyle n) v user)) :
    Prints h k p (printValue out c writeStyle (n + 1) v user) := by
  rintro s ⟨rfl, rfl⟩
  apply wp_bind (wp_gets _)
  apply wp_ite
  · exact fun hdeep => Prints.raise (hk (by omega)) s ⟨rfl, rfl⟩
  · intro hdeep
    apply wp_bind
    apply wp_modify
    apply wp_andThen
    apply wp_mono (hinner (by omega) { s with printDepth := s.printDepth + 1 } ⟨rfl, rfl⟩)
    · rintro a t ⟨ht, hp⟩
      exact ⟨⟨ht.heap, by simp [leavePrint, ht.level]⟩, hp⟩
    · rintro e t ⟨ht, he, hp⟩
      exact ⟨⟨ht.heap, by simp [leavePrint, ht.level]⟩, he, hp⟩

/-- With enough fuel, printing the value at depth `k` takes the levels of its tree. -/
def PrintsTree (h : Heap) (out : Sink β) (c : Config) (writeStyle : Bool) (v : Val) (t : Tree) : Prop :=
  ∀ n k user, 0 < n → c.maxPrintDepth < k + n → Prints h k (k + t.nest ≤ c.maxPrintDepth)
    (printValue out c writeStyle n v user)

/-- So does the loop over a spine, from the depth of the pair it belongs to. -/
def PrintsRest (h : Heap) (out : Sink β) (c : Config) (writeStyle : Bool) (v : Val) (t : Tree) : Prop :=
  ∀ n k bound user, 0 < n → c.maxPrintDepth < k + n → k ≤ c.maxPrintDepth → t.cells < bound →
    Prints h k (k + t.nestRest ≤ c.maxPrintDepth) (printSpine out (printValue out c writeStyle n) bound v user)

theorem printTree_prints {c : Config} {writeStyle : Bool} {t : Tree} (hv : h.Unfolds v t) :
    PrintsTree h out c writeStyle v t ∧ PrintsRest h out c writeStyle v t := by
  -- on the tree, for the value and for the rest of a spine together: a cdr goes on at the same depth
  induction t generalizing v with
  | leaf w =>
    obtain ⟨rfl, hends, hholds⟩ := hv
    have hprint : PrintsTree h out c writeStyle v (.leaf v) := by
      intro n k user hn _
      obtain ⟨n, rfl⟩ := Nat.exists_eq_add_of_le' hn
      apply printValue_prints
      · simp only [Tree.nest]
        omega
      · intro hk
        exact (printAtom_prints hout hends hholds).iff (by simp only [Tree.nest, true_iff]; omega)
    refine ⟨hprint, fun n k bound user hn hmax hk hb => ?_⟩
    obtain ⟨bound, rfl⟩ := Nat.exists_eq_add_of_lt hb
    apply Prints.notPair hends hholds
    rw [if_neg Bool.false_ne_true]
    apply Prints.ite
    · intro hnil
      rw [show (Tree.leaf v).nestRest = (Tree.leaf v).nest from by simp [Tree.nestRest, Tree.nest, hnil]]
      exact .next (emitTo_prints hout) fun user => hprint n k user hn hmax
    · intro hnil
      exact Prints.pure.iff (by simp only [Tree.nestRest, if_pos (not_not.1 hnil), true_iff]; omega)
  | node a d iha ihd =>
    obtain ⟨x, y, ho, hx, hy⟩ := hv
    obtain ⟨hcar, -⟩ := iha hx
    obtain ⟨-, hcdr⟩ := ihd hy
    refine ⟨fun n k user hn hmax => ?_, fun n k bound user hn hmax hk hb => ?_⟩
    · obtain ⟨n, rfl⟩ := Nat.exists_eq_add_of_le' hn
      apply printValue_prints
      · have := a.nest_pos
        simp only [Tree.nest]
        omega
      intro hk
      -- the car and the rest of the spine, both one frame deeper
      have hboth : k + 1 + a.nest ≤ c.maxPrintDepth ∧ k + 1 + d.nestRest ≤ c.maxPrintDepth ↔
          k + (Tree.node a d).nest ≤ c.maxPrintDepth := by
        simp only [Tree.nest]
        omega
      have hcontents : ∀ user, Prints h (k + 1) (k + (Tree.node a d).nest ≤ c.maxPrintDepth)
          (printPairContents out (printValue out c writeStyle n) v user) := by
        intro user
        apply Prints.car ho
        apply Prints.iff _ hboth
        apply (hcar n (k + 1) user (by omega) (by omega)).bind
        intro user
        apply Prints.cdr ho
        apply Prints.look (Q := fun bound h => bound = h.next + 1) fun s _ => wp_gets ⟨rfl, rfl⟩
        rintro bound rfl
        exact hcdr n (k + 1) _ user (by omega) (by omega) (by omega) (Nat.lt_succ_of_lt hy.cells_lt)
      have hclosed : ∀ user, Prints h (k + 1) (k + (Tree.node a d).nest ≤ c.maxPrintDepth) (do
          let user ← printPairContents out (printValue out c writeStyle n) v user
          emitTo out user [ch ')']) :=
        fun user => ((hcontents user).bind fun user => emitTo_prints hout).iff (and_iff_left trivial)
      obtain ⟨z, rfl, hz⟩ := id ho
      have hheld : h.Holds (.obj z) := by
        rintro _ ⟨⟩ -
        exact ⟨_, hz⟩
      apply Prints.test hheld
      intro isString hstring
      apply Prints.ite
      · intro hs
        obtain ⟨o, ho', hs⟩ := hstring.1 hs
        cases ho.unique ho'
        cases hs
      · intro _
        apply Prints.isPair ho
        exact .next (emitTo_prints hout) hclosed
    · obtain ⟨bound, rfl⟩ := Nat.exists_eq_add_of_lt hb
      apply Prints.isPair ho
      rw [if_pos rfl]
      apply Prints.next (emitTo_prints hout)
      intro user
      apply Prints.car ho
      -- in a spine the car is at the depth of the spine
      have hboth : k + a.nest ≤ c.maxPrintDepth ∧ k + d.nestRest ≤ c.maxPrintDepth ↔
          k + (Tree.node a d).nestRest ≤ c.maxPrintDepth := by
        simp only [Tree.nestRest]
        omega
      apply Prints.iff _ hboth
      apply (hcar n k user hn hmax).bind
      intro user
      apply Prints.cdr ho
      simp only [Tree.cells] at hb
      exact hcdr n k _ user hn hmax hk (by simp only [Tree.cells]; omega)

omit hout in
/-- Started at depth 0, the printer ends with an error exactly when the tree has too many
levels, and leaves the depth at 0. -/
theorem mlPrint_tree {c : Config} {s : State} {writeStyle : Bool} {t : Tree} (hout : out.Accepts)
    (hv : s.heap.Unfolds v t)
    (hdepth : s.printDepth = 0) :
    ((mlPrint out c v writeStyle user s).res = .error (.err .errPrintDepth) ↔ c.maxPrintDepth < t.nest) ∧
    (t.nest ≤ c.maxPrintDepth → ∃ user', (mlPrint out c v writeStyle user s).res = .ok user') ∧
    (mlPrint out c v writeStyle user s).state.printDepth = 0 := by
  have hprint : wp Mode.fully (mlPrint out c v writeStyle user) s _ _ :=
    wp_bind (wp_gets ((printTree_prints hout hv).1 _ 0 user (by omega) (by omega) s ⟨rfl, hdepth⟩))
  have hk := (hprint fun _ _ => id).2
  split at hk
  · rename_i user' hres
    obtain ⟨hlevel, hfits⟩ := hk
    refine ⟨?_, fun _ => ⟨user', hres⟩, hlevel.level⟩
    rw [hres]
    constructor
    · exact nofun
    · omega
  · rename_i e hres
    obtain ⟨hlevel, rfl, hfits⟩ := hk
    refine ⟨?_, fun _ => absurd (by omega) hfits, hlevel.level⟩
    rw [hres]
    exact ⟨fun _ => by omega, fun _ => rfl⟩
  · exact absurd trivial hk
  · exact absurd trivial hk

omit hout in
/-- Every value that the interpreter can hold is such a tree. -/
theorem mlPrint_depth {c : Config} {s : State} {writeStyle : Bool} (hout : out.Accepts) (hs : s.WellFormed c)
    (ht : s.heap.Tidy)
    (hv : s.heap.Holds v) (hdepth : s.printDepth = 0) :
    ∃ t, s.heap.Unfolds v t ∧
      ((mlPrint out c v writeStyle user s).res = .error (.err .errPrintDepth) ↔ c.maxPrintDepth < t.nest) ∧
      (t.nest ≤ c.maxPrintDepth → ∃ user', (mlPrint out c v writeStyle user s).res = .ok user') ∧
      (mlPrint out c v writeStyle user s).state.printDepth = 0 := by
  obtain ⟨t, hvt⟩ := Heap.exists_unfolds ht.ranked hs.whole hv
  exact ⟨t, hvt, mlPrint_tree hout hvt hdepth⟩

end Printing

/-- A sink that gathers what it is given. -/
def Sink.gather : Sink Bytes := fun user bytes => pure (user ++ bytes)

theorem Sink.gather_accepts : Sink.gather.Accepts := fun user bytes _ => ⟨⟨user ++ bytes, rfl⟩, rfl, rfl⟩

/-- Two lists in a pair have three levels. -/
theorem mlPrint_depth_twice :
    (mlPrint Sink.gather { Config.created with maxPrintDepth := 2 } Tree.twice.value true [] (State.given .twice)).res
      = .error (.err .errPrintDepth) := by
  obtain ⟨hs, hv, -⟩ := State.given_wellFormed (c := { Config.created with maxPrintDepth := 2 }) (t := .twice) rfl
    (by decide +kernel)
  have htidy : (State.given .twice).heap.Tidy := State.given_tidy (by decide +kernel)
  have htree : (State.given .twice).heap.Unfolds Tree.twice.value .twice := (Heap.unfolds_plant (by decide +kernel)).1
  obtain ⟨t, ht, hdeep, -⟩ := mlPrint_depth Sink.gather_accepts hs htidy hv.holds rfl
  rw [hdeep, ht.unique htree]
  decide

end Microlisp
