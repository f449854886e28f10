import Microlisp.Language.Calls
import Microlisp.Numbers
/-!
# Primitives

What the primitives do to the values of their arguments is what the language says. The arithmetic
of the language is on integers; that of the interpreter is on `int64_t`, which it never leaves.
-/
namespace Microlisp

open Prog Microlisp.Language

section Numbers
variable {α β : Type} {U : List Nat → α → β → State → Prop} {fs : List Nat} {w : World} {s : State} {x : Value}
    {v : Val} {i acc : Int}
  {xs : List Value} {argv : List Val} {what : String} {m : Sem α}

/-! ## Numbers -/

theorem num_tells {f : Int → Sem α} {g : Int → ML β} (hv : s.Stands fs x v)
    (h : ∀ i, x = .fix i → fitsFixnum i = true → Tells U (f i) (g i) fs w s) :
    Tells U (num x >>= f) (expectFix v what >>= g) fs w s := by
  cases x with
  | fix i =>
    obtain ⟨hi, rfl⟩ := hv
    have hvalue : mlFixInt (BitVec.ofInt 61 i) = i := mlFixInt_ofInt (by simpa [fitsFixnum] using hi)
    have hrun : (expectFix (mlMakeFix i) what >>= g) s = g i s := by
      show g (mlFixInt (BitVec.ofInt 61 i)) s = _
      rw [hvalue]
    exact .run hrun (.run_left pure_bind_run (h i rfl hi))
  | _ =>
    have hfix := (Heap.Stands.kind hv).2.1
    have hrun : (expectFix v what >>= g) s =
        (raise 0 0 (ascii what ++ ascii ": expected number") .errType : ML β) s := by
      cases v with
      | fix p => cases hfix
      | _ => rfl
    exact .run hrun raise_tells

/-- A partial result. -/
theorem fixnum_tells {f : Int → Sem α} {g : ML β} (h : fitsFixnum i = true → Tells U (f i) g fs w s) :
    Tells U (fixnum i >>= f) (if fitsFixnum i then g else raiseOverflow what) fs w s := by
  unfold fixnum
  by_cases hi : fitsFixnum i = true
  · rw [if_pos hi, if_pos hi]
    exact .run_left pure_bind_run (h hi)
  · rw [if_neg hi, if_neg hi]
    exact raise_tells

/-- An operation on `int64_t` whose result fits is that of integers. -/
theorem int64Op_tells {g : Int → ML β} (hi : int64Min ≤ i ∧ i ≤ int64Max) (h : Tells U m (g i) fs w s) :
    Tells U m (int64Op i >>= g) fs w s := by
  unfold int64Op
  rw [bind_assoc]
  apply Corresponds.emits
  rw [int64Checked, if_pos hi]
  exact .run pure_bind_run h

theorem makeFix_tells (hi : fitsFixnum i = true) : Tells State.Stands (pure (.fix i) : Sem Value) (makeFix i) fs w s :=
  .emits (tells_pure fun _ => ⟨hi, rfl⟩)

theorem int64Checked_eq {r : Int} (h : int64Checked i = some r) : r = i := by
  unfold int64Checked at h
  split at h <;> cases h
  rfl

theorem foldNum_tells {op : Int → Int → Int} {f : Int → Sem α} {g : Int → ML β} (hargs : s.Stand fs xs argv)
    (hacc : fitsFixnum acc = true)
    (h : ∀ i, fitsFixnum i = true → Tells U (f i) (g i) fs w s) :
    Tells U (foldNum op xs acc >>= f) (foldFix op what argv acc >>= g) fs w s := by
  induction hargs generalizing acc with
  | nil => exact .run pure_bind_run (.run_left pure_bind_run (h acc hacc))
  | cons hv _ ih =>
    unfold foldNum foldFix
    rw [bind_assoc, bind_assoc]
    apply num_tells hv
    intro i _ _
    unfold fixnum
    by_cases hi : fitsFixnum (op acc i) = true
    · rw [if_pos hi, int64Checked_of_fits hi]
      simp only [hi, if_true, pure_bind]
      exact ih hi
    · rw [if_neg hi]
      cases hchecked : int64Checked (op acc i) with
      | none => exact .run raise_bind raise_tells
      | some r =>
        obtain rfl := int64Checked_eq hchecked
        simp only [hi, Bool.false_eq_true, if_false]
        exact .run raise_bind raise_tells

theorem int64Div_tells {j : Int} {g : Int → ML β} (hi : fitsFixnum i = true) (hj : j ≠ 0)
    (h : Tells U m (g (i.tdiv j)) fs w s) :
    Tells U m (int64Div i j >>= g) fs w s := by
  unfold int64Div
  rw [if_neg hj]
  exact int64Op_tells (int64_tdiv hi) h

theorem int64Rem_tells {j : Int} {g : Int → ML β} (hi : fitsFixnum i = true) (hj : j ≠ 0)
    (h : Tells U m (g (i.tmod j)) fs w s) :
    Tells U m (int64Rem i j >>= g) fs w s := by
  unfold int64Rem
  rw [bind_assoc]
  exact int64Div_tells hi hj (.run pure_bind_run h)

/-- A divisor. -/
theorem nonzero_tells {f : Int → Sem α} {g : Int → ML β} (hv : s.Stands fs x v)
    (h : ∀ i, i ≠ 0 → fitsFixnum i = true → Tells U (f i) (g i) fs w s) :
    Tells U (nonzero x >>= f) (expectFix v what >>= fun i => if i = 0 then raiseDivZero what else g i) fs w s := by
  unfold nonzero
  rw [bind_assoc]
  apply num_tells hv
  intro i _ hi
  by_cases hzero : i = 0
  · rw [if_pos hzero, if_pos hzero]
    exact raise_tells
  · rw [if_neg hzero, if_neg hzero]
    exact .run_left pure_bind_run (h i hzero hi)

theorem divNum_tells {f : Int → Sem α} {g : Int → ML β} (hargs : s.Stand fs xs argv) (hacc : fitsFixnum acc = true)
    (h : ∀ i, fitsFixnum i = true → Tells U (f i) (g i) fs w s) :
    Tells U (divNum xs acc >>= f) (divLoop argv acc >>= g) fs w s := by
  induction hargs generalizing acc with
  | nil => exact .run pure_bind_run (.run_left pure_bind_run (h acc hacc))
  | cons hv _ ih =>
    unfold divNum divLoop nonzero
    rw [bind_assoc, bind_assoc, bind_assoc]
    apply num_tells hv
    intro i _ _
    by_cases hzero : i = 0
    · rw [if_pos hzero, if_pos hzero]
      exact .run raise_bind raise_tells
    · rw [if_neg hzero, if_neg hzero, bind_assoc]
      refine int64Div_tells hacc hzero (.run_left pure_bind_run ?_)
      unfold fixnum
      rw [bind_assoc]
      by_cases hfits : fitsFixnum (acc.tdiv i) = true
      · rw [if_pos hfits, if_pos hfits]
        exact .run_left pure_bind_run (ih hfits)
      · rw [if_neg hfits, if_neg hfits]
        exact .run raise_bind raise_tells

theorem chain_tells {op : CmpOp} (hargs : s.Stand fs xs argv) :
    Tells State.Stands (chain op xs acc) (cmpLoop op what argv acc) fs w s := by
  induction hargs generalizing acc with
  | nil => exact tells_pure fun _ => rfl
  | cons hv _ ih =>
    unfold chain cmpLoop
    apply num_tells hv
    intro i _ _
    exact .ite Iff.rfl (fun _ => ih) fun _ => tells_pure fun _ => rfl

theorem compare_tells {op : CmpOp} (hargs : s.Stand fs xs argv) :
    Tells State.Stands (Language.compare op xs) (cmpChain op what argv) fs w s := by
  cases hargs with
  | nil => exact tells_unspecified
  | cons hv hargs => exact num_tells hv fun i _ _ => chain_tells hargs

theorem primSub_tells (hargs : s.Stand fs xs argv) : Tells State.Stands (prim .sub xs) (primSub argv) fs w s := by
  cases hargs with
  | nil => exact tells_unspecified
  | cons hv hargs =>
    cases hargs with
    | nil =>
      apply num_tells hv
      intro i _ hi
      exact int64Op_tells (int64_neg hi) (fixnum_tells makeFix_tells)
    | cons hv' hargs =>
      apply num_tells hv
      intro i _ hi
      exact foldNum_tells (.cons hv' hargs) hi fun _ => makeFix_tells

theorem one_tdiv : Int.tdiv 1 i = if i = 1 then 1 else if i = -1 then -1 else 0 := by
  by_cases hpos : i = 1
  · rw [if_pos hpos, hpos]
    rfl
  · rw [if_neg hpos]
    by_cases hneg : i = -1
    · rw [if_pos hneg, hneg]
      rfl
    · rw [if_neg hneg]
      by_cases hzero : i = 0
      · rw [hzero]
        rfl
      · have hdiv : (Int.tdiv 1 i).natAbs = 1 / i.natAbs := Int.natAbs_tdiv 1 i
        have hsmall : 1 / i.natAbs = 0 := Nat.div_eq_of_lt (by omega)
        omega

/-- The interpreter's remainder is that of a division that rounds down. -/
theorem fmod_eq_floorMod {j : Int} : i.fmod j = floorMod i j := by
  unfold floorMod
  simp only [ne_eq, eq_iff_iff]
  rw [Int.fmod_eq_tmod]
  by_cases hdvd : j ∣ i
  · rw [if_pos hdvd, Int.tmod_eq_zero_of_dvd hdvd]
    simp
  · have hne : i.tmod j ≠ 0 := fun h => hdvd (Int.dvd_of_tmod_eq_zero h)
    rw [if_neg hdvd]
    by_cases hj : j = 0
    · subst hj
      simp
    · obtain ⟨-, -, hpos, hneg⟩ := tmod_laws (a := i) hj
      by_cases hi : 0 ≤ i
      · have := hpos hi
        rw [if_pos hi]
        split <;> split <;> omega
      · have := hneg (by omega)
        rw [if_neg hi]
        split <;> split <;> omega

theorem primDiv_tells (hargs : s.Stand fs xs argv) : Tells State.Stands (prim .div xs) (primDiv argv) fs w s := by
  cases hargs with
  | nil => exact tells_unspecified
  | cons hv hargs =>
    cases hargs with
    | nil =>
      apply nonzero_tells hv
      intro i hzero _
      show Tells State.Stands (pure (.fix (Int.tdiv 1 i)) : Sem Value)
        (makeFix (if i = 1 then 1 else if i = -1 then -1 else 0)) fs w s
      rw [one_tdiv]
      apply makeFix_tells
      split
      · decide
      · split <;> decide
    | cons hv' hargs =>
      apply num_tells hv
      intro i _ hi
      exact divNum_tells (.cons hv' hargs) hi fun _ => makeFix_tells

/-- One argument. -/
theorem one_tells {fn : PrimFn} {g : List Val → ML Val} (hargs : s.Stand fs xs argv)
    (hother : ∀ xs, xs.length ≠ 1 → prim fn xs = unspecified)
    (h : ∀ x v, s.Stands fs x v → Tells State.Stands (prim fn [x]) (g [v]) fs w s) :
    Tells State.Stands (prim fn xs) (g argv) fs w s := by
  by_cases hlen : xs.length = 1
  · obtain ⟨x, rfl⟩ := List.length_eq_one_iff.1 hlen
    cases hargs with
    | cons hv hargs =>
      cases hargs
      exact h x _ hv
  · rw [hother xs hlen]
    exact tells_unspecified

/-- Two arguments. -/
theorem two_tells {fn : PrimFn} {g : List Val → ML Val} (hargs : s.Stand fs xs argv)
    (hother : ∀ xs, xs.length ≠ 2 → prim fn xs = unspecified) (h : ∀ x y v v', s.Stands fs x v → s.Stands fs y v' →
      Tells State.Stands (prim fn [x, y]) (g [v, v']) fs w s) : Tells State.Stands (prim fn xs) (g argv) fs w s := by
  by_cases hlen : xs.length = 2
  · obtain ⟨x, y, rfl⟩ := List.length_eq_two.1 hlen
    cases hargs with
    | cons hv hargs =>
      cases hargs with
      | cons hv' hargs =>
        cases hargs
        exact h x y _ _ hv hv'
  · rw [hother xs hlen]
    exact tells_unspecified

theorem primQuotient_tells {x y : Value} {v v' : Val} (hv : s.Stands fs x v) (hv' : s.Stands fs y v') :
    Tells State.Stands (prim .quotient [x, y]) (primQuotient [v, v']) fs w s := by
  apply num_tells hv
  intro i _ hi
  apply nonzero_tells hv'
  intro j hj _
  exact int64Div_tells hi hj (fixnum_tells makeFix_tells)

theorem primRemainder_tells {x y : Value} {v v' : Val} (hv : s.Stands fs x v) (hv' : s.Stands fs y v') :
    Tells State.Stands (prim .remainder [x, y]) (primRemainder [v, v']) fs w s := by
  apply num_tells hv
  intro i _ hi
  apply nonzero_tells hv'
  intro j hj _
  have hleast : ¬ (i = int64Min ∧ j = -1) := by
    rintro ⟨rfl, -⟩
    exact absurd hi (by decide)
  rw [if_neg hleast]
  exact int64Rem_tells hi hj (makeFix_tells (fits_tmod hi))

theorem primModulo_tells {x y : Value} {v v' : Val} (hv : s.Stands fs x v) (hv' : s.Stands fs y v') :
    Tells State.Stands (prim .modulo [x, y]) (primModulo [v, v']) fs w s := by
  apply num_tells hv
  intro i _ hi
  apply nonzero_tells hv'
  intro j hj hfj
  apply int64Rem_tells hi hj
  have hmod := fits_tmod (b := j) hi
  have hfmod : i.fmod j = floorMod i j := fmod_eq_floorMod
  unfold floorMod at hfmod
  split
  · rename_i hsign
    rw [hfmod, if_pos hsign]
    have hfits := fits_add_of_signs hmod hfj hsign.2
    exact int64Op_tells (int64_of_fits hfits) (makeFix_tells hfits)
  · rename_i hsign
    rw [hfmod, if_neg hsign]
    exact .run pure_bind_run (makeFix_tells hmod)

end Numbers

/-! ## Pairs and lists -/

section Lists
variable {fs : List Nat} {w : World} {s : State} {x y : Value} {v v' : Val} {xs : List Value} {argv : List Val}

theorem primCar_tells (hv : s.Stands fs x v) : Tells State.Stands (prim .car [x]) (primCar [v]) fs w s := by
  refine .run (mlIsPair_stands hv) ?_
  cases x with
  | pair a d =>
    obtain ⟨p, q, ho, hp, -⟩ := id hv
    have hcar : car v s = (pure p : ML Val) s := by
      have h := car_run (k := pure) ho
      rwa [bind_pure] at h
    exact .run hcar (tells_pure fun _ => hp)
  | _ => exact raise_tells

theorem primCdr_tells (hv : s.Stands fs x v) : Tells State.Stands (prim .cdr [x]) (primCdr [v]) fs w s := by
  refine .run (mlIsPair_stands hv) ?_
  cases x with
  | pair a d =>
    obtain ⟨p, q, ho, -, hq⟩ := id hv
    have hcdr : cdr v s = (pure q : ML Val) s := by
      have h := cdr_run (k := pure) ho
      rwa [bind_pure] at h
    exact .run hcdr (tells_pure fun _ => hq)
  | _ => exact raise_tells

theorem primLength_tells (hv : s.Stands fs x v) : Tells State.Stands (prim .length [x]) (primLength [v]) fs w s := by
  obtain ⟨u, hu, hlen, hwalk⟩ := walkList_stands (α := Val) hv
  obtain ⟨_, hspine, hends⟩ := Heap.Stands.spine hv
  have hrun : primLength [v] s = (if u ≠ mvNil then
        raise 0 0 (ascii "length: argument is not a proper list") .errType
      else if (x.cells : Int) > mFixMax then
        raise 0 0 (ascii "length: result exceeds fixnum range") .errOverflow
      else makeFix x.cells : ML Val) s := by
    unfold primLength walkBound
    rw [show argvGet [v] 0 = pure v from rfl, pure_bind, gets_bind_run,
      hwalk _ _ _ (Nat.lt_succ_of_lt (hspine.lt_next hends))]
    simp only [Nat.zero_add]
  refine .run hrun ?_
  cases hlength : x.length? with
  | none =>
    rw [if_pos fun h => by simpa [hlength] using hu.1 h]
    simp only [prim, hlength]
    exact raise_tells
  | some n =>
    rw [if_neg (not_not_intro (hu.2 (by rw [hlength]; rfl))), hlen n hlength]
    simp only [prim, hlength]
    have hfits : fitsFixnum (n : Int) = true ↔ ¬ (n : Int) > mFixMax := by
      rw [fits_iff]
      simp only [mFixMax]
      omega
    unfold fixnum
    by_cases hlt : (n : Int) > mFixMax
    · rw [if_pos hlt, if_neg fun h => hfits.1 h hlt]
      exact raise_tells
    · rw [if_neg hlt, if_pos (hfits.2 hlt)]
      exact .run_left pure_bind_run (makeFix_tells (hfits.2 hlt))

variable {c : Config} (hc : ∀ n size, c.alloc n size = true) (hd : ∀ s, c.collectDue s = false)
include hc

theorem mlGcProtect_tells : Tells (fun _ _ _ _ => True) (pure () : Sem Unit) (mlGcProtect c v) fs w s := by
  apply Corresponds.of_fully rfl (F := fun _ _ => False) _ fun _ _ h => h.elim
  intro hI
  apply wp_mono (mlGcProtect_total hc) _ fun _ _ h => h
  intro _ t ht
  have hq : Unaltered s t := by
    rw [ht]
    exact ⟨rfl, rfl, rfl, rfl, rfl⟩
  exact ⟨fs, Onward.refl.quiet hq, hI.quiet hq, trivial⟩

include hd

/-- `list` builds its list from the end. -/
theorem primListLoop_tells {sp : Nat} {i : Nat} {head : Val} (hargs : s.Stand fs xs argv) (hi : i ≤ xs.length)
    (hhead : s.Stands fs (.list (xs.drop i)) head) :
    Tells State.Stands (pure (.list xs) : Sem Value) (primListLoop c argv sp i head) fs w s := by
  induction i generalizing fs w s head with
  | zero => exact tells_pure fun _ => hhead
  | succ i ih =>
    have hlen : xs.length = argv.length := List.Forall₂.length_eq hargs
    have hltx : i < xs.length := hi
    have hlt : i < argv.length := hlen ▸ hltx
    have hx : s.Stands fs xs[i] argv[i] := List.Forall₂.get hargs hltx hlt
    have hget : argvGet argv i = pure argv[i] := by
      unfold argvGet
      rw [List.getElem?_eq_getElem hlt]
    unfold primListLoop
    rw [hget, pure_bind]
    have hcell := (pair_tells (w := w) hc hd hx hhead).onErr (g := mlGcRestore sp)
      fun _ _ t hon hI => ⟨hon.quiet ⟨rfl, rfl, rfl, rfl, rfl⟩, hI.quiet ⟨rfl, rfl, rfl, rfl, rfl⟩⟩
    apply Tells.unseen hcell
    intro fs' cell w' s' hon hcell
    have hset : Unaltered s' (gcProtectSet sp cell s') := ⟨rfl, rfl, rfl, rfl, rfl⟩
    apply (modify_tells (a := ()) hset).unseen
    intro fs'' _ w'' s'' hon' _
    apply ih ((State.Stand.later hargs hon).later hon') (Nat.le_of_lt hi)
    rw [List.drop_eq_getElem_cons hltx]
    exact State.Stands.later hcell hon'

theorem primList_tells (hargs : s.Stand fs xs argv) : Tells State.Stands (prim .list xs) (primList c argv) fs w s := by
  have hlen : xs.length = argv.length := List.Forall₂.length_eq hargs
  unfold primList
  refine .run gets_bind_run ?_
  apply (mlGcProtect_tells hc).unseen
  intro fs' _ w' s' hon _
  have hhead : s'.Stands fs' (.list (xs.drop argv.length)) mvNil := by
    rw [List.drop_of_length_le (Nat.le_of_eq hlen)]
    rfl
  apply (primListLoop_tells hc hd (hargs.later hon) (Nat.le_of_eq hlen.symm) hhead).unseen
  intro fs'' v w'' s'' hon' hv
  have hrestore : Unaltered s'' (mlGcRestore s.gcProtect.length s'') := ⟨rfl, rfl, rfl, rfl, rfl⟩
  apply (modify_tells (a := ()) hrestore).unseen
  exact fun fs₃ _ w₃ s₃ hon'' _ => tells_pure fun _ => hv.later hon''

end Lists

/-! ## Identity -/

section Identity
variable {h : Heap} {names : List Bytes} {fs : List Nat} {x y : Value} {v v' : Val} {e : Bool}

/-- What is no object is known by its bits. -/
def Language.Value.ofBits (names : List Bytes) : Val → Option Value
  | .fix p => some (.fix (mlFixInt p))
  | .imm i =>
    match i with
    | .nil => some .nil
    | .tt => some (.bool true)
    | .ff => some (.bool false)
    | _ => some .undef
  | .sym i => names[i.toNat]?.map .sym
  | _ => none

theorem Heap.Stands.ofBits (hv : h.Stands names fs x v) (hx : x.isObj = false) : Value.ofBits names v = some x := by
  cases x with
  | fix i =>
    obtain ⟨hi, rfl⟩ := hv
    have hvalue : mlFixInt (BitVec.ofInt 61 i) = i := mlFixInt_ofInt (by simpa [fitsFixnum] using hi)
    rw [mlMakeFix, Value.ofBits, hvalue]
  | sym name =>
    obtain ⟨i, rfl, hi⟩ := hv
    obtain ⟨hlt, hname, -⟩ := List.findIdx?_eq_some_iff_getElem.1 hi
    rw [Value.ofBits, List.getElem?_eq_getElem hlt, ← eq_of_beq hname]
    rfl
  | undef =>
    cases hv
    rfl
  | nil =>
    cases hv
    rfl
  | bool b =>
    cases hv
    cases b <;> rfl
  | _ => cases hx

theorem Heap.Stands.det (hv : h.Stands names fs x v) (hw : h.Stands names fs x v') (hx : x.isObj = false) : v = v' := by
  cases x with
  | sym name => exact (Heap.stands_sym_iff hv hw).1 rfl
  | fix i => rw [hv.2, hw.2]
  | undef => exact Eq.trans hv (Eq.symm hw)
  | nil => exact Eq.trans hv (Eq.symm hw)
  | bool b => exact Eq.trans hv (Eq.symm hw)
  | _ => cases hx

/-- `eq?` tells kinds of objects apart. -/
theorem same_obj (hx : x.isObj = true) (he : x.same y = some e) : e = false ∧ ∀ o, x.Looks o → ¬ y.Looks o := by
  cases x <;> cases hx
  all_goals
    cases y <;> first
      | cases he
        refine ⟨rfl, fun o => ?_⟩
        cases o <;> simp [Value.Looks]
      | cases he

theorem same_symm : x.same y = y.same x := by
  cases x <;> cases y <;> simp [Value.same, eq_comm]

/-- `eq?` compares what is no object. -/
theorem Heap.Stands.same (hv : h.Stands names fs x v) (hw : h.Stands names fs y v') (he : x.same y = some e) :
    v = v' ↔ e = true := by
  have hobj : ∀ {x y v v'}, h.Stands names fs x v → h.Stands names fs y v' → x.same y = some e → x.isObj = true →
      v ≠ v' ∧ e = false := by
    intro x y v v' hv hw he hx
    obtain ⟨hfalse, hother⟩ := same_obj hx he
    refine ⟨?_, hfalse⟩
    rintro rfl
    obtain ⟨a, o, rfl, ho, -⟩ := hv.obj hx
    exact hother o (hv.looks ⟨a, rfl, ho⟩) (hw.looks ⟨a, rfl, ho⟩)
  by_cases hx : x.isObj = true
  · obtain ⟨hne, rfl⟩ := hobj hv hw he hx
    simp [hne]
  · by_cases hy : y.isObj = true
    · obtain ⟨hne, rfl⟩ := hobj hw hv (same_symm ▸ he) hy
      simp [Ne.symm hne]
    · have hx := Bool.eq_false_iff.2 hx
      have hsame : x.same y = some (decide (x = y)) := by
        cases x <;> first | rfl | cases hx
      rw [hsame] at he
      cases he
      rw [decide_eq_true_iff]
      constructor
      · rintro rfl
        exact Option.some.inj ((hv.ofBits hx).symm.trans (hw.ofBits (Bool.eq_false_iff.2 hy)))
      · rintro rfl
        exact hv.det hw hx

/-- A value is `eqv?` to itself. -/
theorem Heap.Stands.eqv_self (hv : h.Stands names fs x v) (hw : h.Stands names fs y v) (he : x.eqv y = some e) :
    e = true := by
  by_cases hstr : x.isStr = true ∧ y.isStr = true
  · cases x with
    | str bytes =>
      cases y with
      | str bytes' =>
        cases Heap.Has.unique hv hw
        cases he
        simp
      | _ => cases hstr.2
    | _ => cases hstr.1
  · have hsame : x.same y = some e := by
      cases x <;> cases y <;> first | exact absurd ⟨rfl, rfl⟩ hstr | exact he
    exact (hv.same hw hsame).1 rfl

theorem Heap.Stands.equal_self (hv : h.Stands names fs x v) (hw : h.Stands names fs y v)
    (he : x.equal y = some e) : e = true := by
  induction x generalizing y v e with
  | pair a d iha ihd =>
    obtain ⟨p, q, ho, hp, hq⟩ := id hv
    cases y with
    | pair a' d' =>
      obtain ⟨p', q', ho', hp', hq'⟩ := hw
      cases ho.unique ho'
      rw [Value.equal, Option.bind_eq_some_iff] at he
      obtain ⟨r, hr, he⟩ := he
      rw [if_pos (iha hp hp' hr)] at he
      exact ihd hq hq' he
    | _ => exact hv.eqv_self hw he
  | _ => exact hv.eqv_self hw he

variable {s : State} {α : Type} {w : World} {c : Config}

theorem stringBytes_run {bytes : Bytes} {k : Bytes → ML α} (ho : s.heap.Has v (.string bytes)) :
    (stringBytes v >>= k) s = k bytes s := by
  unfold stringBytes
  rw [bind_assoc, asObj_run ho]
  exact pure_bind_run

/-- What `ml_value_eqv` answers. -/
theorem mlValueEqv_stands (hv : s.Stands fs x v) (hw : s.Stands fs y v') :
    ∃ r, (∀ k : Bool → ML α, (mlValueEqv v v' >>= k) s = k r s) ∧
    (∀ e, x.eqv y = some e → r = e) ∧ (r = true → v = v' ∨ ∃ bytes, x = .str bytes ∧ y = .str bytes) := by
  by_cases hvv : v = v'
  · subst hvv
    refine ⟨true, fun k => ?_, fun e he => (Heap.Stands.eqv_self hv hw he).symm, fun _ => .inl rfl⟩
    unfold mlValueEqv
    rw [if_pos rfl]
    exact pure_bind_run
  · have hother : ∀ {e}, x.same y = some e → false = e := by
      intro e he
      rw [eq_comm, Bool.eq_false_iff]
      exact fun h => hvv ((Heap.Stands.same hv hw he).2 h)
    unfold mlValueEqv
    rw [if_neg hvv]
    cases x with
    | str bytes =>
      cases y with
      | str bytes' =>
        refine ⟨bytes == bytes', fun k => ?_, ?_, ?_⟩
        · rw [bind_assoc, mlIsString_stands hv]
          simp only [Value.isStr, if_true]
          rw [bind_assoc, mlIsString_stands hw]
          simp only [Value.isStr, if_true]
          rw [bind_assoc, stringBytes_run hv, bind_assoc, stringBytes_run hw]
          exact pure_bind_run
        · rintro _ ⟨⟩
          exact (beq_eq_decide _ _)
        · intro hr
          exact .inr ⟨bytes, rfl, by rw [eq_of_beq hr]⟩
      | _ =>
        refine ⟨false, fun k => ?_, fun e he => hother he, fun h => by cases h⟩
        rw [bind_assoc, mlIsString_stands hv]
        simp only [Value.isStr, if_true]
        rw [bind_assoc, mlIsString_stands hw]
        exact pure_bind_run
    | _ =>
      refine ⟨false, fun k => ?_, fun e he => hother ?_, fun h => by cases h⟩
      · rw [bind_assoc, mlIsString_stands hv]
        exact pure_bind_run
      · cases y <;> exact he

/-- What `ml_value_equal` answers, unless it has to go too deep. -/
theorem valueEqual_stands {n : Nat} (hv : s.Stands fs x v) (hw : s.Stands fs y v')
    (hn : c.maxEqualDepth < s.equalDepth + n) (hpos : 0 < n) :
    wp Mode.fully (valueEqual c n v v') s (fun r t => t = s ∧ ∀ e, x.equal y = some e → r = e) fun e _ =>
      e = .errEqualDepth := by
  induction n generalizing x y v v' s with
  | zero => exact absurd hpos (Nat.lt_irrefl 0)
  | succ n ih =>
    obtain ⟨r, hrun, heqv, hsame⟩ := mlValueEqv_stands (α := Bool) hv hw
    unfold valueEqual
    apply wp_bind (wp_gets _)
    apply wp_ite
    · exact fun _ => wp_bind (wp_modify (wp_fail rfl))
    intro hdepth
    apply wp_of_run (hrun _)
    apply wp_ite
    · intro hr
      refine wp_pure ⟨rfl, fun e he => Eq.symm ?_⟩
      rcases hsame hr with rfl | ⟨bytes, rfl, rfl⟩
      · exact Heap.Stands.equal_self hv hw he
      · cases he
        simp
    intro hr
    -- two pairs are compared part by part, all else is settled by `eqv?`
    have hatom : (∀ a d a' d', x = .pair a d → y ≠ .pair a' d') → ∀ e, x.equal y = some e → false = e := by
      intro hpair e he
      rw [← heqv e, Bool.eq_false_iff.2 hr]
      cases x with
      | pair a d =>
        cases y with
        | pair a' d' => exact absurd rfl (hpair a d a' d' rfl)
        | _ => exact he
      | _ => exact he
    apply wp_of_run (mlIsPair_stands hv)
    cases x with
    | pair a d =>
      apply wp_of_run (mlIsPair_stands hw)
      cases y with
      | pair a' d' =>
        obtain ⟨p, q, ho, hp, hq⟩ := id hv
        obtain ⟨p', q', ho', hp', hq'⟩ := id hw
        apply wp_of_run (car_run ho)
        apply wp_of_run (car_run ho')
        have hdeeper : c.maxEqualDepth < s.equalDepth + 1 + n := by omega
        apply wp_bind (wp_modify _)
        apply wp_seq (Q := fun r t => t = { s with equalDepth := s.equalDepth + 1 } ∧ ∀ e, a.equal a' = some e → r = e)
        · apply wp_onErr
          exact ih (s := { s with equalDepth := s.equalDepth + 1 }) hp hp' hdeeper (by omega)
        · rintro r' t ⟨rfl, hcar⟩
          -- the cdrs count only when the cars are equal
          have hequal : ∀ e, (Value.pair a d).equal (.pair a' d') = some e →
              (if r' then d.equal d' else some false) = some e := by
            intro e he
            rw [Value.equal, Option.bind_eq_some_iff] at he
            obtain ⟨r, hr, he⟩ := he
            rwa [hcar r hr]
          apply wp_ite
          · intro hfalse
            refine wp_bind (wp_modify ?_)
            refine wp_pure ⟨rfl, fun e he => ?_⟩
            have he := hequal e he
            cases r' with
            | false => exact Option.some.inj he
            | true => cases hfalse
          · intro htrue
            have ho₁ : ({ s with equalDepth := s.equalDepth + 1 } : State).heap.Has v (.pair p q) := ho
            have ho₂ : ({ s with equalDepth := s.equalDepth + 1 } : State).heap.Has v' (.pair p' q') := ho'
            apply wp_of_run (cdr_run ho₁)
            apply wp_of_run (cdr_run ho₂)
            apply wp_andThen
            apply wp_mono (ih (s := { s with equalDepth := s.equalDepth + 1 }) hq hq' hdeeper (by omega)) _
              fun _ _ h => h
            rintro r t ⟨rfl, hcdr⟩
            refine ⟨rfl, fun e he => hcdr e ?_⟩
            have he := hequal e he
            cases r' with
            | false => exact absurd rfl htrue
            | true => exact he
      | _ => exact wp_pure ⟨rfl, hatom (by simp)⟩
    | _ => exact wp_pure ⟨rfl, hatom (by simp)⟩

theorem mlValueEqual_stands (hv : s.Stands fs x v) (hw : s.Stands fs y v') :
    wp Mode.fully (mlValueEqual c v v') s (fun r t => t = s ∧ ∀ e, x.equal y = some e → r = e) fun e _ =>
      e = .errEqualDepth :=
  wp_bind (wp_gets (valueEqual_stands hv hw (by omega) (by omega)))

theorem primEqP_tells (hv : s.Stands fs x v) (hw : s.Stands fs y v') :
    Tells State.Stands (prim .eqP [x, y]) (primEqP [v, v']) fs w s := by
  show Tells State.Stands (settle (x.same y) >>= fun e => pure (.bool e))
    (pure (mlMakeBool (mlValueEq v v')) : ML Val) fs w s
  cases he : x.same y with
  | none => exact tells_unspecified
  | some e =>
    refine Corresponds.run_left pure_bind_run (tells_pure fun _ => ?_)
    have hvv : (v == v') = e := by
      rw [Bool.eq_iff_iff, beq_iff_eq]
      exact Heap.Stands.same hv hw he
    show mlMakeBool (v == v') = mlMakeBool e
    rw [hvv]

theorem primEqvP_tells (hv : s.Stands fs x v) (hw : s.Stands fs y v') :
    Tells State.Stands (prim .eqvP [x, y]) (primEqvP [v, v']) fs w s := by
  obtain ⟨r, hrun, heqv, -⟩ := mlValueEqv_stands (α := Val) hv hw
  refine .run (hrun _) ?_
  show Tells State.Stands (settle (x.eqv y) >>= fun e => pure (.bool e)) (pure (mlMakeBool r) : ML Val) fs w s
  cases he : x.eqv y with
  | none => exact tells_unspecified
  | some e =>
    rw [heqv e he]
    exact .run_left pure_bind_run (tells_pure fun _ => rfl)

theorem primEqualP_tells (hv : s.Stands fs x v) (hw : s.Stands fs y v') :
    Tells State.Stands (prim .equalP [x, y]) (primEqualP c [v, v']) fs w s := by
  show Tells State.Stands (settle (x.equal y) >>= fun e => pure (.bool e)) (primEqualP c [v, v']) fs w s
  cases he : x.equal y with
  | none => exact tells_unspecified
  | some e =>
    apply Corresponds.run_left pure_bind_run
    apply Corresponds.of_fully rfl (F := fun e _ => e = .errEqualDepth)
    · intro hI
      apply wp_seq (mlValueEqual_stands hv hw)
      rintro r t ⟨rfl, hr⟩
      rw [hr e he]
      exact wp_pure ⟨fs, .refl, hI, rfl⟩
    · rintro _ _ rfl
      exact ⟨_, rfl, rfl⟩

end Identity

/-! ## Predicates -/

section Predicates
variable {fs : List Nat} {w : World} {s : State} {xs : List Value} {argv : List Val}

theorem test_tells {p : Value → Bool} {t : Val → ML Bool} (hargs : s.Stand fs xs argv)
    (hrun : ∀ x v, s.Stands fs x v → ∀ k : Bool → ML Val, (t v >>= k) s = k (p x) s) :
    Tells State.Stands (test p xs) (definePredicate t argv) fs w s := by
  cases hargs with
  | nil => exact tells_unspecified
  | cons hv hargs =>
    cases hargs with
    | nil => exact .run (hrun _ _ hv _) (tells_pure fun _ => rfl)
    | cons => exact tells_unspecified

theorem mlIsProcedure_stands {α : Type} {x : Value} {v : Val} {k : Bool → ML α} (hv : s.Stands fs x v) :
    (mlIsProcedure v >>= k) s = k x.isProcedure s := by
  unfold mlIsProcedure
  rw [bind_assoc, mlIsClosure_stands hv]
  cases hx : x.isClosure with
  | true =>
    simp only [if_true, Value.isProcedure, hx, Bool.true_or]
    exact pure_bind_run
  | false =>
    simp only [Bool.false_eq_true, if_false, Value.isProcedure, hx, Bool.false_or]
    exact mlIsPrim_stands hv

theorem primError_tells (hargs : s.Stand fs xs argv) : Tells State.Stands (prim .error xs) (primError argv) fs w s := by
  cases hargs with
  | nil => exact raise_tells
  | @cons x v _ _ hv _ =>
    refine .run (mlIsString_stands hv) ?_
    by_cases hstr : x.isStr = true
    · cases x with
      | str bytes =>
        rw [if_pos hstr]
        exact .run (stringBytes_run hv) raise_tells
      | _ => cases hstr
    · rw [if_neg hstr]
      split
      · exact .run gets_bind_run raise_tells
      · exact raise_tells

end Predicates

end Microlisp
