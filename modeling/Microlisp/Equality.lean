import Microlisp.Lib.Unfold
import Microlisp.Trees
/-!
# Structural equality

A value unfolds into a tree of pairs, strings and leaves, infinite if its pairs form a
cycle. `ml_value_equal` compares two such trees from the root down, and gives up when it
has to go too deep. We show what it answers, and how deep it goes.
-/
namespace Microlisp

open Prog

/-! ## Values as trees -/

inductive Side where
  | car
  | cdr
deriving DecidableEq

/-- What is seen of a value at its root. -/
inductive Shape where
  | pair
  | string (bytes : Bytes)
  | leaf (v : Val)
deriving DecidableEq

namespace Heap

def graph (h : Heap) : Labelled Val Side Shape where
  label := fun v =>
    match h.obj? v with
    | some (.pair _ _) => .pair
    | some (.string bytes) => .string bytes
    | _ => .leaf v
  next := fun v side =>
    match h.obj? v, side with
    | some (.pair a _), .car => some a
    | some (.pair _ d), .cdr => some d
    | _, _ => none

/-- The two values unfold into the same tree. Leaves are the same if they are the same
value, strings if they have the same bytes. -/
def Equal (h : Heap) (v w : Val) : Prop := h.graph.Alike v w

/-- The same value, or strings with the same bytes. -/
def Eqv (h : Heap) (v w : Val) : Prop := v = w ∨ ∃ bytes, h.Has v (.string bytes) ∧ h.Has w (.string bytes)

section Trees
variable {h : Heap} {v w a a' d d' : Val} {bytes : Bytes}

theorem label_pair (hv : h.Has v (.pair a d)) : h.graph.label v = .pair := by
  simp only [graph, obj?_eq_some.2 hv]

theorem next_pair (hv : h.Has v (.pair a d)) (side : Side) :
    h.graph.next v side = match side with | .car => some a | .cdr => some d := by
  cases side <;> simp only [graph, obj?_eq_some.2 hv]

theorem label_string (hv : h.Has v (.string bytes)) : h.graph.label v = .string bytes := by
  simp only [graph, obj?_eq_some.2 hv]

theorem label_leaf (hv : h.Ends v) (hstring : ∀ bytes, ¬ h.Has v (.string bytes)) : h.graph.label v = .leaf v := by
  simp only [graph]
  split
  · rename_i ho
    exact absurd (obj?_eq_some.1 ho) (hv _ _)
  · rename_i ho
    exact absurd (obj?_eq_some.1 ho) (hstring _)
  · rfl

theorem next_leaf (hv : h.Ends v) (side : Side) : h.graph.next v side = none := by
  simp only [graph]
  split <;> rename_i ho
  · exact absurd (obj?_eq_some.1 ho) (hv _ _)
  · exact absurd (obj?_eq_some.1 ho) (hv _ _)
  · rfl

theorem Has.string_ends (hv : h.Has v (.string bytes)) : h.Ends v := by
  intro a d ho
  cases hv.unique ho

/-- Two pairs are equal if both their parts are. -/
theorem equal_pair (hv : h.Has v (.pair a d)) (hw : h.Has w (.pair a' d')) :
    h.Equal v w ↔ h.Equal a a' ∧ h.Equal d d' := by
  unfold Equal
  rw [Labelled.alike_iff, label_pair hv, label_pair hw]
  simp only [next_pair hv, next_pair hw, true_and]
  constructor
  · intro hparts
    refine ⟨?_, ?_⟩
    · simpa using hparts .car
    · simpa using hparts .cdr
  · rintro ⟨hcar, hcdr⟩ side
    cases side with
    | car => exact .some hcar
    | cdr => exact .some hcdr

/-- Leaves and strings are equal if `eqv?` says so. -/
theorem equal_of_eqv (hvw : h.Eqv v w) : h.Equal v w := by
  rcases hvw with rfl | ⟨bytes, hv, hw⟩
  · exact h.graph.alike_equivalence.refl v
  · refine Labelled.alike_iff.2 ⟨?_, fun side => ?_⟩
    · rw [label_string hv, label_string hw]
    · rw [next_leaf hv.string_ends, next_leaf hw.string_ends]
      exact .none

theorem eqv_of_equal (hv : h.Ends v) (hvw : h.Equal v w) : h.Eqv v w := by
  have hlabel := (Labelled.alike_iff.1 hvw).1
  by_cases hstring : ∃ bytes, h.Has v (.string bytes)
  · obtain ⟨bytes, hbytes⟩ := hstring
    rw [label_string hbytes] at hlabel
    refine .inr ⟨bytes, hbytes, ?_⟩
    simp only [graph] at hlabel
    split at hlabel <;> cases hlabel
    rename_i ho
    exact obj?_eq_some.1 ho
  · rw [label_leaf hv fun bytes hb => hstring ⟨bytes, hb⟩] at hlabel
    simp only [graph] at hlabel
    split at hlabel <;> cases hlabel
    exact .inl rfl

theorem equal_symm (hvw : h.Equal v w) : h.Equal w v := h.graph.alike_equivalence.symm hvw

theorem Eqv.symm (hvw : h.Eqv v w) : h.Eqv w v := by
  rcases hvw with rfl | ⟨bytes, hv, hw⟩
  · exact .inl rfl
  · exact .inr ⟨bytes, hw, hv⟩

end Trees

/-! ## What is compared -/

/-- Comparing `v` with `w` comes, `n` calls down, to comparing `x` with `y`: from two
different pairs to their cars and, if these are equal, to their cdrs. -/
inductive Compared (h : Heap) (v w : Val) : Nat → Val → Val → Prop
  | root : Compared h v w 0 v w
  | car {n : Nat} {x y a a' d d' : Val} : Compared h v w n x y → x ≠ y → h.Has x (.pair a d) → h.Has y (.pair a' d') →
      Compared h v w (n + 1) a a'
  | cdr {n : Nat} {x y a a' d d' : Val} : Compared h v w n x y → x ≠ y → h.Has x (.pair a d) → h.Has y (.pair a' d') →
      h.Equal a a' → Compared h v w (n + 1) d d'

section Compared
variable {h : Heap} {v w v' w' x y a a' d d' : Val} {n : Nat}

theorem Compared.eq_root (hc : h.Compared v w 0 x y) : x = v ∧ y = w := by
  cases hc
  exact ⟨rfl, rfl⟩

/-- What a call made by the first one compares. -/
theorem Compared.after (hfirst : h.Compared v w 1 v' w') (hc : h.Compared v' w' n x y) :
    h.Compared v w (n + 1) x y := by
  induction hc with
  | root => exact hfirst
  | car _ hne hx hy ih => exact .car ih hne hx hy
  | cdr _ hne hx hy heq ih => exact .cdr ih hne hx hy heq

/-- Below the first call, what is compared is compared by one of the two calls it makes. -/
theorem Compared.split (hv : h.Has v (.pair a d)) (hw : h.Has w (.pair a' d')) (hc : h.Compared v w (n + 1) x y) :
    h.Compared a a' n x y ∨ h.Equal a a' ∧ h.Compared d d' n x y := by
  induction n generalizing x y with
  | zero =>
    cases hc with
    | car hroot _ hx hy =>
      obtain ⟨rfl, rfl⟩ := hroot.eq_root
      cases hv.unique hx
      cases hw.unique hy
      exact .inl .root
    | cdr hroot _ hx hy heq =>
      obtain ⟨rfl, rfl⟩ := hroot.eq_root
      cases hv.unique hx
      cases hw.unique hy
      exact .inr ⟨heq, .root⟩
  | succ n ih =>
    cases hc with
    | car hc hne hx hy => exact (ih hc).imp (.car · hne hx hy) fun hc => ⟨hc.1, .car hc.2 hne hx hy⟩
    | cdr hc hne hx hy heq => exact (ih hc).imp (.cdr · hne hx hy heq) fun hc => ⟨hc.1, .cdr hc.2 hne hx hy heq⟩

/-- From the same value, or one that is not a pair, nothing more is compared. -/
theorem Compared.root_only (hstop : h.Eqv v w ∨ h.Ends v ∨ h.Ends w) (hc : h.Compared v w n x y) : n = 0 := by
  have hno : ∀ a a' d d', v ≠ w → h.Has v (.pair a d) → ¬ h.Has w (.pair a' d') := by
    intro a a' d d' hne hv hw
    rcases hstop with (rfl | ⟨bytes, hb, -⟩) | hends | hends
    · exact hne rfl
    · exact hb.string_ends _ _ hv
    · exact hends _ _ hv
    · exact hends _ _ hw
  have hone : ∀ x y, ¬ h.Compared v w 1 x y := by
    intro x y hc
    cases hc with
    | car hroot hne hx hy =>
      obtain ⟨rfl, rfl⟩ := hroot.eq_root
      exact hno _ _ _ _ hne hx hy
    | cdr hroot hne hx hy _ =>
      obtain ⟨rfl, rfl⟩ := hroot.eq_root
      exact hno _ _ _ _ hne hx hy
  induction n generalizing x y with
  | zero => rfl
  | succ n ih =>
    have hprev : ∃ x y, h.Compared v w n x y := by
      cases hc with
      | car hc _ _ _ => exact ⟨_, _, hc⟩
      | cdr hc _ _ _ _ => exact ⟨_, _, hc⟩
    obtain ⟨_, _, hprev⟩ := hprev
    cases ih hprev
    exact absurd hc (hone _ _)

end Compared

end Heap

/-! ## Runs -/

section Runs
variable {M : Mode Event} {c : Config} {s t : State} {v w : Val} {E : Status → State → Prop}

theorem mlValueEqv_wp (hv : M.safe → s.heap.Holds v) (hw : M.safe → s.heap.Holds w) :
    wp M (mlValueEqv v w) s (fun r t => t = s ∧ (r = true ↔ s.heap.Eqv v w)) E := by
  apply wp_ite
  · rintro rfl
    exact wp_pure ⟨rfl, by simp [Heap.Eqv]⟩
  · intro hne
    apply wp_seq (mlIsString_wp hv)
    rintro r t ⟨rfl, hr⟩
    apply wp_ite
    · intro hstring
      apply wp_seq (mlIsString_wp hw)
      rintro r' t ⟨rfl, hr'⟩
      apply wp_ite
      · intro hstring'
        apply wp_seq (stringBytes_wp fun _ => hr.1 hstring)
        rintro bytes t ⟨rfl, hbytes⟩
        apply wp_seq (stringBytes_wp fun _ => hr'.1 hstring')
        rintro bytes' t ⟨rfl, hbytes'⟩
        refine wp_pure ⟨rfl, ?_⟩
        rw [beq_iff_eq]
        constructor
        · rintro rfl
          exact .inr ⟨bytes, hbytes, hbytes'⟩
        · rintro (heq | ⟨b, hb, hb'⟩)
          · exact absurd heq hne
          · cases hbytes.unique hb
            cases hbytes'.unique hb'
            rfl
      · intro hother
        refine wp_pure ⟨rfl, by simp, ?_⟩
        rintro (heq | ⟨b, -, hb'⟩)
        · exact absurd heq hne
        · exact absurd (hr'.2 ⟨b, hb'⟩) hother
    · intro hother
      refine wp_pure ⟨rfl, by simp, ?_⟩
      rintro (heq | ⟨b, hb, -⟩)
      · exact absurd heq hne
      · exact absurd (hr.2 ⟨b, hb⟩) hother

/-- In the heap `h`, a comparison has come to depth `k`. -/
structure Heap.AtDepth (h : Heap) (k : Nat) (s : State) : Prop where
  heap : s.heap = h
  depth : s.equalDepth = k

/-- At depth `k`, comparing the two values stays within the limit. -/
def Config.Compares (c : Config) (h : Heap) (k : Nat) (v w : Val) : Prop :=
  ∀ n x y, h.Compared v w n x y → k + n < c.maxEqualDepth

variable {h : Heap} {k n : Nat}

theorem not_compares (hdepth : c.maxEqualDepth ≤ k) : ¬ c.Compares h k v w := by
  intro hc
  have := hc 0 v w .root
  omega

theorem compares_root (hdepth : k < c.maxEqualDepth) (hstop : h.Eqv v w ∨ h.Ends v ∨ h.Ends w) :
    c.Compares h k v w := by
  intro n x y hc
  rw [hc.root_only hstop]
  exact hdepth

/-- Two different pairs are compared within the limit if their cars are, and their cdrs in
case it comes to them. -/
theorem compares_pair {a d a' d' : Val} (hdepth : k < c.maxEqualDepth) (hne : v ≠ w) (hv : h.Has v (.pair a d))
    (hw : h.Has w (.pair a' d')) :
    c.Compares h k v w ↔ c.Compares h (k + 1) a a' ∧ (h.Equal a a' → c.Compares h (k + 1) d d') := by
  constructor
  · intro hc
    refine ⟨fun n x y hcar => ?_, fun heq n x y hcdr => ?_⟩
    · have := hc (n + 1) x y (.after (.car .root hne hv hw) hcar)
      omega
    · have := hc (n + 1) x y (.after (.cdr .root hne hv hw heq) hcdr)
      omega
  · rintro ⟨hcar, hcdr⟩ n x y hc
    cases n with
    | zero => exact hdepth
    | succ n =>
      rcases hc.split hv hw with hc | ⟨heq, hc⟩
      · have := hcar n x y hc
        omega
      · have := hcdr heq n x y hc
        omega

theorem Heap.AtDepth.leave (hs : h.AtDepth (k + 1) s) : h.AtDepth k (leaveEqual s) :=
  ⟨hs.heap, by simp [leaveEqual, hs.depth]⟩

/-- The answer is that of the trees. There is one if the comparison stays within the limit. -/
def Heap.Answers (h : Heap) (c : Config) (k : Nat) (v w : Val) (r : Bool) (t : State) : Prop :=
  h.AtDepth k t ∧ (r = true ↔ h.Equal v w) ∧ c.Compares h k v w

def Heap.TooDeep (h : Heap) (c : Config) (k : Nat) (v w : Val) (e : Status) (t : State) : Prop :=
  h.AtDepth k t ∧ e = .errEqualDepth ∧ ¬ c.Compares h k v w

theorem valueEqual_triple (hwhole : M.safe → h.Whole) (hv : M.safe → h.Holds v) (hw : M.safe → h.Holds w)
    (hpos : 0 < n) (hn : c.maxEqualDepth < k + n) :
    Triple M (h.AtDepth k) (valueEqual c n v w) (h.Answers c k v w) (h.TooDeep c k v w) := by
  -- on the fuel, which the depth limit keeps from running out
  induction n generalizing k v w with
  | zero => omega
  | succ n ih =>
    rintro s ⟨rfl, rfl⟩
    apply wp_bind (wp_gets _)
    apply wp_ite
    · intro hdepth
      exact wp_bind (wp_modify (wp_fail ⟨⟨rfl, rfl⟩, rfl, not_compares hdepth⟩))
    intro hdepth
    have hdepth : s.equalDepth < c.maxEqualDepth := by omega
    apply wp_seq (mlValueEqv_wp hv hw)
    rintro r t ⟨rfl, hr⟩
    apply wp_ite
    · intro heqv
      exact wp_pure ⟨⟨rfl, rfl⟩, by simp [Heap.equal_of_eqv (hr.1 heqv)], compares_root hdepth (.inl (hr.1 heqv))⟩
    intro hneqv
    have hneqv : ¬ t.heap.Eqv v w := fun heqv => hneqv (hr.2 heqv)
    apply wp_seq (mlIsPair_wp hv)
    rintro r t ⟨rfl, hr⟩
    apply wp_ite
    · intro hother
      have hends : t.heap.Ends v := fun a d ho => absurd (hr.2 ⟨(a, d), ho⟩) (by simpa using hother)
      refine wp_pure ⟨⟨rfl, rfl⟩, ?_, compares_root hdepth (.inr (.inl hends))⟩
      simp only [Bool.false_eq_true, false_iff]
      exact fun heq => hneqv (Heap.eqv_of_equal hends heq)
    intro hpair
    obtain ⟨⟨a, d⟩, hov⟩ := hr.1 (by simpa using hpair)
    apply wp_seq (mlIsPair_wp hw)
    rintro r t ⟨rfl, hr⟩
    apply wp_ite
    · intro hother
      have hends : t.heap.Ends w := fun a d ho => absurd (hr.2 ⟨(a, d), ho⟩) (by simpa using hother)
      refine wp_pure ⟨⟨rfl, rfl⟩, ?_, compares_root hdepth (.inr (.inr hends))⟩
      simp only [Bool.false_eq_true, false_iff]
      exact fun heq => hneqv (Heap.eqv_of_equal hends (Heap.equal_symm heq)).symm
    intro hpair
    obtain ⟨⟨a', d'⟩, how⟩ := hr.1 (by simpa using hpair)
    have hcompares := compares_pair hdepth (fun heq => hneqv (.inl heq)) hov how
    have hequal := Heap.equal_pair hov how
    have hparts : M.safe → (t.heap.Holds a ∧ t.heap.Holds d) ∧ t.heap.Holds a' ∧ t.heap.Holds d' :=
      fun hs => ⟨hwhole hs _ _ _ hov, hwhole hs _ _ _ how⟩
    apply wp_seq (car_wp fun _ => ⟨a, d, hov⟩)
    rintro x t ⟨rfl, _, hx⟩
    cases hov.unique hx
    apply wp_seq (car_wp fun _ => ⟨a', d', how⟩)
    rintro x t ⟨rfl, _, hx⟩
    cases how.unique hx
    apply wp_bind (wp_modify _)
    -- the cars, one level deeper; the cdrs follow only when they are equal
    have hcar := ih (k := t.equalDepth + 1) (fun hs => (hparts hs).1.1) (fun hs => (hparts hs).2.1)
      (by omega) (by omega)
      { t with equalDepth := t.equalDepth + 1 } ⟨rfl, rfl⟩
    refine wp_seq (Q := t.heap.Answers c (t.equalDepth + 1) a a') (wp_onErr (wp_mono hcar (fun _ _ h => h) ?_)) ?_
    · rintro e u ⟨hu, rfl, hdeep⟩
      exact ⟨hu.leave, rfl, fun hc => hdeep (hcompares.1 hc).1⟩
    rintro r u ⟨hu, hr, hwithin⟩
    apply wp_ite
    · intro hdiffer
      have hdiffer : ¬ t.heap.Equal a a' := fun heq => by simp [hr.2 heq] at hdiffer
      refine wp_bind (wp_modify (wp_pure ⟨hu.leave, ?_, hcompares.2 ⟨hwithin, fun heq => absurd heq hdiffer⟩⟩))
      simp [hequal, hdiffer]
    intro hsame
    have hsame : t.heap.Equal a a' := hr.1 (by simpa using hsame)
    have hov' : u.heap.Has v (.pair a d) := hu.heap.symm ▸ hov
    have how' : u.heap.Has w (.pair a' d') := hu.heap.symm ▸ how
    apply wp_seq (cdr_wp fun _ => ⟨a, d, hov'⟩)
    rintro x u' ⟨rfl, _, hx⟩
    cases hov'.unique hx
    apply wp_seq (cdr_wp fun _ => ⟨a', d', how'⟩)
    rintro x u' ⟨rfl, _, hx⟩
    cases how'.unique hx
    apply wp_andThen
    apply wp_mono (ih (fun hs => (hparts hs).1.2) (fun hs => (hparts hs).2.2) (by omega) (by omega) u' hu)
    · rintro r u ⟨hu, hr, hwithin'⟩
      exact ⟨hu.leave, by simp [hequal, hsame, hr], hcompares.2 ⟨hwithin, fun _ => hwithin'⟩⟩
    · rintro e u ⟨hu, rfl, hdeep⟩
      exact ⟨hu.leave, rfl, fun hc => hdeep ((hcompares.1 hc).2 hsame)⟩

theorem mlValueEqual_wp (hwhole : M.safe → s.heap.Whole) (hv : M.safe → s.heap.Holds v) (hw : M.safe → s.heap.Holds w) :
    wp M (mlValueEqual c v w) s (s.heap.Answers c s.equalDepth v w) (s.heap.TooDeep c s.equalDepth v w) :=
  wp_bind (wp_gets (valueEqual_triple hwhole hv hw (by omega) (by omega) s ⟨rfl, rfl⟩))

/-! ## What is answered -/

/-- A run of `ml_value_equal` in the heap `h` answers `r`. -/
def Heap.Answered (h : Heap) (v w : Val) (r : Bool) : Prop :=
  ∃ c s, s.heap = h ∧ (mlValueEqual c v w s).res = .ok r

/-- Whatever the heap. -/
theorem mlValueEqual_partly (c : Config) (s : State) (v w : Val) :
    wp Mode.partly (mlValueEqual c v w) s (s.heap.Answers c s.equalDepth v w) (s.heap.TooDeep c s.equalDepth v w) :=
  mlValueEqual_wp False.elim False.elim False.elim

theorem Heap.Answered.iff {r : Bool} (hr : h.Answered v w r) : r = true ↔ h.Equal v w := by
  obtain ⟨c, s, rfl, hres⟩ := hr
  have hk := (mlValueEqual_partly c s v w fun _ _ => id).2
  rw [hres] at hk
  exact hk.2.1

/-- An answer is that of the trees, whatever the depth the comparison starts at. So the
answers are those of an equivalence. A comparison that ends, by an answer or an error,
leaves the depth as it was. -/
theorem mlValueEqual_structural (h : Heap) :
    (∀ v w r, h.Answered v w r → (r = true ↔ h.Equal v w)) ∧
    (∀ v r, h.Answered v v r → r = true) ∧
    (∀ v w r r', h.Answered v w r → h.Answered w v r' → r = r') ∧
    (∀ u v w r, h.Answered u v true → h.Answered v w true → h.Answered u w r → r = true) ∧
    ∀ c s v w o, s.heap = h → (mlValueEqual c v w s).Ends o →
      (mlValueEqual c v w s).state.equalDepth = s.equalDepth := by
  refine ⟨fun v w r hr => hr.iff, fun v r hr => hr.iff.2 rfl, ?_, ?_, ?_⟩
  · intro v w r r' hr hr'
    rw [Bool.eq_iff_iff, hr.iff, hr'.iff]
    exact ⟨Heap.equal_symm, Heap.equal_symm⟩
  · intro u v w r huv hvw hr
    exact hr.iff.2 (h.graph.alike_equivalence.trans (huv.iff.1 rfl) (hvw.iff.1 rfl))
  · rintro c s v w o rfl ho
    have hk := (mlValueEqual_partly c s v w fun _ _ => id).2
    unfold Run.Ends at ho
    cases o <;> rw [ho] at hk <;> exact hk.1.depth

/-! ## When there is an answer -/

/-- There is an answer exactly when the comparison stays within the limit. -/
theorem mlValueEqual_answers (hs : s.WellFormed c) (hv : s.heap.ValOk v) (hw : s.heap.ValOk w) :
    (∃ r, (mlValueEqual c v w s).res = .ok r) ↔ c.Compares s.heap s.equalDepth v w := by
  have hwp : wp Mode.fully (mlValueEqual c v w) s _ _ :=
    mlValueEqual_wp (fun _ => hs.whole) (fun _ => hv.holds) fun _ => hw.holds
  have hk := (hwp fun _ _ => id).2
  constructor
  · rintro ⟨r, hr⟩
    rw [hr] at hk
    exact hk.2.2
  · intro hc
    split at hk
    · rename_i r hr
      exact ⟨r, hr⟩
    · exact absurd hc hk.2.2
    · exact absurd trivial hk
    · exact absurd trivial hk

end Runs

/-! ## Long lists -/

/-- Two lists that are compared are equal. -/
theorem mlValueEqual_structural_ones : (State.given .twice).heap.Equal (.obj 5) (.obj 9) :=
  ((mlValueEqual_structural _).1 _ _ true ⟨.created, .given .twice, rfl, by decide +kernel⟩).1 rfl

/-- With a limit of four levels, lists of two levels are compared too deep. -/
theorem mlValueEqual_long :
    ¬ ∀ (c : Config) (s : State) (v w : Val) (t u : Tree), s.WellFormed c → s.heap.ValOk v → s.heap.ValOk w →
      s.equalDepth = 0 → s.heap.Unfolds v t → s.heap.Unfolds w u → t.nest < c.maxEqualDepth → u.nest < c.maxEqualDepth →
      ∃ r, (mlValueEqual c v w s).res = .ok r := by
  intro hclaim
  obtain ⟨hpair, hv, hw⟩ := Tree.twice_parts
  obtain ⟨hs, -, -⟩ := State.given_wellFormed (c := { Config.created with maxEqualDepth := 4 }) (t := .twice) rfl
    (by decide +kernel)
  obtain ⟨a, -, ha⟩ := hpair
  obtain ⟨hokv, hokw⟩ := hs.objs a _ ha
  obtain ⟨r, hr⟩ := hclaim { Config.created with maxEqualDepth := 4 } (.given .twice) (.obj 5)
    (.obj 9) _ _ hs hokv hokw rfl hv hw
    (by decide) (by decide)
  have herr : (mlValueEqual { Config.created with maxEqualDepth := 4 } (.obj 5) (.obj 9) (.given .twice)).res
      = .error (.err .errEqualDepth) := by decide +kernel
  rw [hr] at herr
  cases herr

/-- With the limit that a new interpreter has, they are compared to the end. -/
theorem mlValueEqual_answers_ones : Config.created.Compares (State.given .twice).heap 0 (.obj 5) (.obj 9) := by
  obtain ⟨⟨a, -, ha⟩, -, -⟩ := Tree.twice_parts
  obtain ⟨hs, -, -⟩ := State.given_wellFormed (c := .created) (t := .twice) rfl (by decide +kernel)
  obtain ⟨hokv, hokw⟩ := hs.objs a _ ha
  exact (mlValueEqual_answers hs hokv hokw).1 ⟨true, by decide +kernel⟩

end Microlisp
