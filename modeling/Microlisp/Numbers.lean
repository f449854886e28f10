import Mathlib.Data.List.Chain
import Microlisp.Arith
import Microlisp.Lib.Refusal
/-!
# What the integer primitives compute

Sums, differences, products and quotients of argument lists of any length, with the place
where a list is refused, and comparison chains. The results are those of exact integers.
-/
namespace Microlisp

open Prog Refusal

/-- The integer of a fixnum. -/
def Val.int? : Val → Option Int
  | .fix p => some (mlFixInt p)
  | _ => none

/-- The integers of the fixnums. -/
def ints (argv : List Val) : List Int := argv.filterMap Val.int?

section Ends
variable {α β : Type} {s : State} {v : Val} {what : String} {x : Int} {argv pre post : List Val}

theorem Val.int?_makeFix (hx : fitsFixnum x = true) : (mlMakeFix x).int? = some x :=
  congrArg some (mlFixInt_ofInt (by simpa [fitsFixnum] using hx))

theorem expectFix_run (hv : v.int? = some x) (f : Int → ML α) : (expectFix v what >>= f) s = f x s := by
  cases v with
  | fix p =>
    cases hv
    rfl
  | _ => cases hv

theorem expectFix_type (hv : v.int? = none) (f : Int → ML α) :
    ((expectFix v what >>= f) s).res = .error (.err .errType) := by
  cases v with
  | fix p => cases hv
  | _ => rfl

theorem int64Checked_of_fits (hx : fitsFixnum x = true) : int64Checked x = some x := if_pos (int64_of_fits hx)

theorem ints_append : ints (pre ++ post) = ints pre ++ ints post := List.filterMap_append

theorem ints_snoc (hv : v.int? = some x) : ints (pre ++ [v]) = ints pre ++ [x] := by
  rw [ints_append]
  simp [ints, hv]

theorem ints_cons (hv : v.int? = some x) : ints (v :: post) = x :: ints post := by
  simp [ints, hv]

theorem fits_of_int? (hv : v.InRange) (hx : v.int? = some x) : fitsFixnum x = true := by
  cases v with
  | fix p =>
    cases hx
    exact hv
  | _ => cases hx

theorem int64Op_res (hx : int64Min ≤ x ∧ x ≤ int64Max) (f : Int → ML α) : ((int64Op x >>= f) s).res = (f x s).res := by
  have hrun : (int64Op x s).res = .ok x ∧ (int64Op x s).state = s := by
    unfold int64Op int64Checked
    rw [if_pos hx]
    exact ⟨rfl, rfl⟩
  show (Prog.bind (int64Op x) f s).res = _
  simp only [Prog.bind, hrun]

/-- How a scan of the arguments ends. -/
def scanned (refuse : List Val → Val → Option Status) (pre argv : List Val) (a : α) : Except Status α :=
  match first refuse pre argv with
  | some e => .error e
  | none => .ok a

/-- An argument that is refused. -/
theorem scanned_refused {refuse : List Val → Val → Option Status} {a : α} {e : Status} (h : refuse pre v = some e) :
    scanned refuse pre (v :: argv) a = .error e := by
  simp only [scanned, first, h]

/-- An argument that is not. -/
theorem scanned_next {refuse : List Val → Val → Option Status} {a : α} (h : refuse pre v = none) :
    scanned refuse pre (v :: argv) a = scanned refuse (pre ++ [v]) argv a := by
  simp only [scanned, first, h]

theorem Ends.bind {m : ML α} {f : α → ML β} {o : Except Status α} {g : α → β} (hm : (m s).Ends o)
    (hf : ∀ a t, (f a t).res = .ok (g a)) : ((m >>= f) s).Ends (o.map g) := by
  unfold Run.Ends at hm
  cases o with
  | error e =>
    have hm' : (m s).res = .error (.err e) := hm
    show (Prog.bind m f s).res = .error (.err e)
    simp only [Prog.bind, hm']
  | ok a =>
    have hm' : (m s).res = .ok a := hm
    show (Prog.bind m f s).res = .ok (g a)
    simp only [Prog.bind, hm']
    exact hf a _

end Ends

/-! ## Sums, differences and products -/

/-- The arguments so far must be fixnums, and so must what they come to. -/
def outOfRange (total : List Int → Int) (pre : List Val) (v : Val) : Option Status :=
  match v.int? with
  | none => some .errType
  | some x => if fitsFixnum (total (ints pre ++ [x])) then none else some .errOverflow

def difference : List Int → Int
  | [] => 0
  | x :: xs => x - xs.sum

section Folds
variable {s : State} {op : Int → Int → Int} {total : List Int → Int} {what : String} {pre argv : List Val} {v : Val}

/-- One checked operation for each argument computes the exact result, or stops where it
leaves the range. -/
theorem foldFix_ends (pre : List Val) {acc : Int} (hacc : acc = total (ints pre))
    (hop : ∀ mid x, total (ints pre ++ mid ++ [x]) = op (total (ints pre ++ mid)) x) :
    (foldFix op what argv acc s).Ends (scanned (outOfRange total) pre argv (total (ints (pre ++ argv)))) := by
  induction argv generalizing pre acc with
  | nil =>
    rw [List.append_nil, hacc]
    rfl
  | cons v argv ih =>
    simp only [foldFix]
    cases hv : v.int? with
    | none =>
      have hrefuse : outOfRange total pre v = some .errType := by simp [outOfRange, hv]
      rw [scanned_refused hrefuse]
      exact expectFix_type hv _
    | some x =>
      have hnext : total (ints pre ++ [x]) = op (total (ints pre)) x := by
        have := hop [] x
        rwa [List.append_nil] at this
      subst hacc
      rw [expectFix_run hv, ← hnext]
      by_cases hfits : fitsFixnum (total (ints pre ++ [x])) = true
      · have haccept : outOfRange total pre v = none := by simp [outOfRange, hv, hfits]
        rw [scanned_next haccept, int64Checked_of_fits hfits]
        dsimp only
        rw [if_pos hfits, show pre ++ v :: argv = pre ++ [v] ++ argv by simp]
        apply ih
        · rw [ints_snoc hv]
        · intro mid y
          rw [ints_snoc hv]
          simpa using hop (x :: mid) y
      · have hrefuse : outOfRange total pre v = some .errOverflow := by simp [outOfRange, hv, hfits]
        rw [scanned_refused hrefuse]
        -- whether the 64-bit operation overflows or not
        unfold int64Checked
        by_cases hlarge : int64Min ≤ total (ints pre ++ [x]) ∧ total (ints pre ++ [x]) ≤ int64Max
        · rw [if_pos hlarge]
          dsimp only
          rw [if_neg hfits]
          rfl
        · rw [if_neg hlarge]
          rfl

theorem makeFix_res {x : Int} : (makeFix x s).res = .ok (mlMakeFix x) := rfl

theorem primAdd_ends :
    (primAdd argv s).Ends ((scanned (outOfRange List.sum) [] argv (ints argv).sum).map mlMakeFix) := by
  have hfold : (foldFix (· + ·) "+" argv 0 s).Ends (scanned (outOfRange List.sum) [] argv (ints argv).sum) := by
    apply foldFix_ends []
    · rfl
    · exact fun mid x => by simp [ints]
  exact Ends.bind hfold fun _ _ => makeFix_res

theorem primMul_ends :
    (primMul argv s).Ends ((scanned (outOfRange List.prod) [] argv (ints argv).prod).map mlMakeFix) := by
  have hfold : (foldFix (· * ·) "*" argv 1 s).Ends (scanned (outOfRange List.prod) [] argv (ints argv).prod) := by
    apply foldFix_ends []
    · rfl
    · exact fun mid x => by simp [ints]
  exact Ends.bind hfold fun _ _ => makeFix_res

/-- With two arguments or more. -/
theorem primSub_ends (hargs : ∀ v ∈ argv, v.InRange) (hlen : 2 ≤ argv.length) :
    (primSub argv s).Ends ((scanned (outOfRange difference) [] argv (difference (ints argv))).map mlMakeFix) := by
  obtain ⟨v, w, argv, rfl⟩ : ∃ v w l, argv = v :: w :: l := by
    match argv, hlen with
    | v :: w :: l, _ => exact ⟨v, w, l, rfl⟩
  unfold primSub
  rw [if_neg (by simp)]
  cases hv : v.int? with
  | none =>
    have hrefuse : outOfRange difference [] v = some .errType := by simp [outOfRange, hv]
    rw [scanned_refused hrefuse]
    exact expectFix_type hv _
  | some x =>
    have hfits := fits_of_int? (hargs v (by simp)) hv
    have haccept : outOfRange difference [] v = none := by simp [outOfRange, hv, ints, difference, hfits]
    rw [scanned_next haccept]
    have hints : ints [v] = [x] := ints_cons hv
    have hfold : (foldFix (· - ·) "-" (w :: argv) x s).Ends
        (scanned (outOfRange difference) [v] (w :: argv) (difference (ints (v :: w :: argv)))) := by
      apply foldFix_ends [v]
      · rw [hints]
        simp [difference]
      · intro mid y
        rw [hints]
        simp [difference]
        omega
    rw [List.nil_append]
    exact (congrArg (fun r : Run State Status Event Val => r.Ends _) (expectFix_run hv _)).mpr
      (Ends.bind hfold fun _ _ => makeFix_res)

end Folds

/-- The run reports the first refusal, or else returns the fixnum that `total` gives. -/
def Scans (refuse : List Val → Val → Option Status) (total : List Int → Int) (argv : List Val) (m : ML Val)
    (s : State) : Prop :=
  (∀ e, (m s).res = .error (.err e) ↔ Refused refuse argv e) ∧
  ∀ v, (m s).res = .ok v ↔ Accepted refuse argv ∧ v = mlMakeFix (total (ints argv))

theorem scans_of_ends {refuse : List Val → Val → Option Status} {total : List Int → Int} {argv : List Val} {m : ML Val}
    {s : State} (h : (m s).Ends ((scanned refuse [] argv (total (ints argv))).map mlMakeFix)) :
    Scans refuse total argv m s := by
  unfold Run.Ends scanned at h
  constructor
  · intro e
    rw [← first_eq_some]
    cases hf : first refuse [] argv with
    | none =>
      rw [hf] at h
      rw [h]
      exact ⟨nofun, nofun⟩
    | some e' =>
      rw [hf] at h
      rw [h]
      constructor
      · rintro ⟨⟩
        rfl
      · rintro ⟨⟩
        rfl
  · intro v
    rw [← first_eq_none]
    cases hf : first refuse [] argv with
    | none =>
      rw [hf] at h
      rw [h]
      constructor
      · rintro ⟨⟩
        exact ⟨rfl, rfl⟩
      · rintro ⟨-, rfl⟩
        rfl
    | some e' =>
      rw [hf] at h
      rw [h]
      exact ⟨nofun, nofun⟩

/-- One argument is taken from zero. -/
theorem primSub_one (s : State) (v : Val) (hv : v.InRange) :
    (primSub [v] s).res = (primSub [mlMakeFix 0, v] s).res := by
  have hzero : (mlMakeFix 0).int? = some 0 := Val.int?_makeFix (by decide)
  have htwo : (primSub [mlMakeFix 0, v] s).Ends _ := primSub_ends
    (by
      intro w hw
      rcases List.mem_pair.1 hw with rfl | rfl
      · exact (by decide : fitsFixnum (mlFixInt (BitVec.ofInt 61 0)) = true)
      · exact hv)
    (Nat.le_refl 2)
  have haccept : outOfRange difference [] (mlMakeFix 0) = none := by simp [outOfRange, hzero, ints, difference]; decide
  rw [scanned_next haccept] at htwo
  cases hx : v.int? with
  | none =>
    have hrefuse : outOfRange difference [mlMakeFix 0] v = some .errType := by simp [outOfRange, hx]
    have hone : (primSub [v] s).res = .error (.err .errType) := expectFix_type hx _
    rw [List.nil_append, scanned_refused hrefuse] at htwo
    exact hone.trans htwo.symm
  | some x =>
    have hneg := int64_neg (fits_of_int? hv hx)
    have hone : (primSub [v] s).res = ((if fitsFixnum (-x) then makeFix (-x) else raiseOverflow "-") s).res := by
      refine (congrArg Run.res (expectFix_run hx _)).trans ?_
      exact int64Op_res hneg _
    have hints : ints [mlMakeFix 0] = [0] := ints_cons hzero
    by_cases hfits : fitsFixnum (-x) = true
    · have haccept : outOfRange difference [mlMakeFix 0] v = none := by simp [outOfRange, hx, hints, difference, hfits]
      rw [List.nil_append, scanned_next haccept, ints_cons hzero, ints_cons hx] at htwo
      have htwo' : (primSub [mlMakeFix 0, v] s).res = .ok (mlMakeFix (difference [0, x])) := htwo
      rw [hone, if_pos hfits, htwo', show difference [0, x] = -x by simp [difference]]
      rfl
    · have hrefuse : outOfRange difference [mlMakeFix 0] v = some .errOverflow := by
        simp [outOfRange, hx, hints, difference, hfits]
      rw [List.nil_append, scanned_refused hrefuse] at htwo
      rw [hone, if_neg hfits]
      exact htwo.symm

/-- Sums, products and differences of arguments of any number are exact, or refused at the
first argument that is no fixnum or takes the exact result out of range. -/
theorem sums_exact (s : State) (argv : List Val) :
    Scans (outOfRange List.sum) List.sum argv (primAdd argv) s ∧ Scans (outOfRange List.prod) List.prod argv
      (primMul argv) s ∧
    ((∀ v ∈ argv, v.InRange) → 2 ≤ argv.length → Scans (outOfRange difference) difference argv (primSub argv) s) ∧
    ∀ v : Val, v.InRange → (primSub [v] s).res = (primSub [mlMakeFix 0, v] s).res :=
  ⟨scans_of_ends primAdd_ends, scans_of_ends primMul_ends, fun hargs hlen => scans_of_ends (primSub_ends hargs hlen),
    primSub_one s⟩

theorem sums_exact_difference :
    Scans (outOfRange difference) difference [mlMakeFix 3, mlMakeFix 5] (primSub [mlMakeFix 3, mlMakeFix 5]) .created :=
  (sums_exact .created [mlMakeFix 3, mlMakeFix 5]).2.2.1
    (by
      intro v hv
      rcases List.mem_pair.1 hv with rfl | rfl
      · exact (by decide : fitsFixnum (mlFixInt (BitVec.ofInt 61 3)) = true)
      · exact (by decide : fitsFixnum (mlFixInt (BitVec.ofInt 61 5)) = true))
    (by decide)

/-! ## Quotients -/

/-- A dividend, then divisors. -/
def quotientOf : List Int → Int
  | [] => 1
  | a :: bs => a.tdiv bs.prod

/-- A divisor must not be zero, nor take the least fixnum to its opposite. -/
def undivided (pre : List Val) (v : Val) : Option Status :=
  match v.int? with
  | none => some .errType
  | some x =>
    if ints pre = [] then none
    else if x = 0 then some .errDivZero
    else if quotientOf (ints pre) = mFixMin ∧ x = -1 then some .errOverflow
    else none

section Divisions
variable {s : State} {a b x : Int} {pre argv : List Val} {v : Val}

/-- Dividing twice is dividing once by the product. -/
theorem tdiv_tdiv (a b c : Int) : (a.tdiv b).tdiv c = a.tdiv (b * c) := by
  obtain ⟨n, rfl | rfl⟩ := a.eq_nat_or_neg <;> obtain ⟨m, rfl | rfl⟩ := b.eq_nat_or_neg <;>
    obtain ⟨k, rfl | rfl⟩ := c.eq_nat_or_neg <;>
    simp only [Int.neg_tdiv, Int.tdiv_neg, Int.neg_mul, Int.mul_neg, Int.neg_neg, ← Int.natCast_mul, ← Int.ofNat_tdiv,
      Nat.div_div_eq_div_mul]

theorem quotientOf_snoc {xs : List Int} (hne : xs ≠ []) : quotientOf (xs ++ [x]) = (quotientOf xs).tdiv x := by
  cases xs with
  | nil => exact absurd rfl hne
  | cons a bs => simp [quotientOf, tdiv_tdiv]

/-- The one quotient of fixnums that is none. -/
theorem fits_tdiv (ha : fitsFixnum a = true) (hb : b ≠ 0) : fitsFixnum (a.tdiv b) = true ↔
    ¬ (a = mFixMin ∧ b = -1) := by
  by_cases hone : b = -1
  · rw [hone, Int.tdiv_neg, Int.tdiv_one, fits_iff]
    rw [fits_iff] at ha
    constructor
    · rintro hrange ⟨hleast, -⟩
      simp only [mFixMin] at hleast
      omega
    · intro hleast
      have hne : a ≠ mFixMin := fun h => hleast ⟨h, rfl⟩
      simp only [mFixMin] at hne
      omega
  · constructor
    · exact fun _ h => hone h.2
    · intro _
      have hle : (a.tdiv b).natAbs ≤ a.natAbs := Int.natAbs_tdiv_le_natAbs a b
      have hdiv : (a.tdiv b).natAbs = a.natAbs / b.natAbs := Int.natAbs_tdiv a b
      rw [fits_iff] at ha ⊢
      by_cases hpos : b = 1
      · rw [hpos, Int.tdiv_one]
        exact ha
      · -- halved at least
        have hhalf : a.natAbs / b.natAbs ≤ a.natAbs / 2 := Nat.div_le_div_left (by omega) (by decide)
        omega

theorem int64Div_res {α : Type} (ha : fitsFixnum a = true) (hb : b ≠ 0) (f : Int → ML α) :
    ((int64Div a b >>= f) s).res = (f (a.tdiv b) s).res := by
  unfold int64Div
  rw [if_neg hb]
  exact int64Op_res (int64_tdiv ha) f

theorem divLoop_ends (pre : List Val) {acc : Int} (hne : ints pre ≠ []) (hacc : acc = quotientOf (ints pre))
    (hfits : fitsFixnum acc = true) :
    (divLoop argv acc s).Ends (scanned undivided pre argv (quotientOf (ints (pre ++ argv)))) := by
  induction argv generalizing pre acc with
  | nil =>
    rw [List.append_nil, hacc]
    rfl
  | cons v argv ih =>
    simp only [divLoop]
    cases hv : v.int? with
    | none =>
      have hrefuse : undivided pre v = some .errType := by simp [undivided, hv]
      rw [scanned_refused hrefuse]
      exact expectFix_type hv _
    | some x =>
      subst hacc
      rw [expectFix_run hv]
      by_cases hzero : x = 0
      · have hrefuse : undivided pre v = some .errDivZero := by simp [undivided, hv, hne, hzero]
        rw [scanned_refused hrefuse, if_pos hzero]
        rfl
      rw [if_neg hzero]
      have hres := int64Div_res (s := s) hfits hzero
        fun acc => if fitsFixnum acc = true then divLoop argv acc else raiseOverflow "/"
      have hnext := fits_tdiv hfits hzero
      by_cases hleast : quotientOf (ints pre) = mFixMin ∧ x = -1
      · have hrefuse : undivided pre v = some .errOverflow := by simp [undivided, hv, hne, hleast]
        rw [scanned_refused hrefuse]
        rw [if_neg (fun h => hnext.1 h hleast)] at hres
        exact hres
      · have haccept : undivided pre v = none := by
          simp only [undivided, hv, if_neg hne, if_neg hzero, if_neg hleast]
        rw [scanned_next haccept]
        rw [if_pos (hnext.2 hleast)] at hres
        have hints : ints (pre ++ [v]) = ints pre ++ [x] := ints_snoc hv
        have hne' : ints (pre ++ [v]) ≠ [] := by simp [hints]
        have hacc' : (quotientOf (ints pre)).tdiv x = quotientOf (ints (pre ++ [v])) := by
          rw [hints, quotientOf_snoc hne]
        have hrest := ih (pre ++ [v]) hne' hacc' (hnext.2 hleast)
        rw [List.append_assoc] at hrest
        exact hres.trans hrest

/-- With two arguments or more. -/
theorem primDiv_ends (hargs : ∀ v ∈ argv, v.InRange) (hlen : 2 ≤ argv.length) :
    (primDiv argv s).Ends ((scanned undivided [] argv (quotientOf (ints argv))).map mlMakeFix) := by
  obtain ⟨v, w, argv, rfl⟩ : ∃ v w l, argv = v :: w :: l := by
    match argv, hlen with
    | v :: w :: l, _ => exact ⟨v, w, l, rfl⟩
  unfold primDiv
  rw [if_neg (by simp)]
  cases hv : v.int? with
  | none =>
    have hrefuse : undivided [] v = some .errType := by simp [undivided, hv]
    rw [scanned_refused hrefuse]
    exact expectFix_type hv _
  | some x =>
    have hfits := fits_of_int? (hargs v (by simp)) hv
    have haccept : undivided [] v = none := by simp [undivided, hv, ints]
    rw [scanned_next haccept]
    have hints : ints [v] = [x] := ints_cons hv
    have hloop : (divLoop (w :: argv) x s).Ends
        (scanned undivided [v] (w :: argv) (quotientOf (ints (v :: w :: argv)))) := by
      apply divLoop_ends [v]
      · simp [hints]
      · simp [hints, quotientOf]
      · exact hfits
    rw [List.nil_append]
    exact (congrArg (fun r : Run State Status Event Val => r.Ends _) (expectFix_run hv _)).mpr
      (Ends.bind hloop fun _ _ => makeFix_res)

/-- One argument divides one. -/
theorem primDiv_one (s : State) (v : Val) (hv : v.InRange) :
    (primDiv [v] s).res = (primDiv [mlMakeFix 1, v] s).res := by
  have hunit : (mlMakeFix 1).int? = some 1 := Val.int?_makeFix (by decide)
  have htwo : (primDiv [mlMakeFix 1, v] s).Ends _ := primDiv_ends
    (by
      intro w hw
      rcases List.mem_pair.1 hw with rfl | rfl
      · exact (by decide : fitsFixnum (mlFixInt (BitVec.ofInt 61 1)) = true)
      · exact hv)
    (Nat.le_refl 2)
  have haccept : undivided [] (mlMakeFix 1) = none := by simp [undivided, hunit, ints]
  rw [scanned_next haccept, List.nil_append] at htwo
  have hints : ints [mlMakeFix 1] = [1] := ints_cons hunit
  cases hx : v.int? with
  | none =>
    have hrefuse : undivided [mlMakeFix 1] v = some .errType := by simp [undivided, hx]
    have hone : (primDiv [v] s).res = .error (.err .errType) := expectFix_type hx _
    rw [scanned_refused hrefuse] at htwo
    exact hone.trans htwo.symm
  | some x =>
    have hone : (primDiv [v] s).res = ((if x = 0 then raiseDivZero "/" else
        makeFix (if x = 1 then 1 else if x = -1 then -1 else 0) : ML Val) s).res :=
          congrArg Run.res (expectFix_run hx _)
    by_cases hzero : x = 0
    · have hrefuse : undivided [mlMakeFix 1] v = some .errDivZero := by simp [undivided, hx, hints, hzero]
      rw [scanned_refused hrefuse] at htwo
      rw [hone, if_pos hzero]
      exact htwo.symm
    · have hleast : ¬ ((1 : Int) = mFixMin ∧ x = -1) := fun h => by
        have := h.1
        simp only [mFixMin] at this
        omega
      have haccept' : undivided [mlMakeFix 1] v = none := by
        simp only [undivided, hx, hints, quotientOf, List.prod_nil, Int.tdiv_one]
        rw [if_neg (by simp), if_neg hzero, if_neg hleast]
      rw [scanned_next haccept', ints_cons hunit, ints_cons hx] at htwo
      have htwo' : (primDiv [mlMakeFix 1, v] s).res = .ok (mlMakeFix (quotientOf [1, x])) := htwo
      have hquot : quotientOf [1, x] = if x = 1 then 1 else if x = -1 then -1 else 0 := by
        show Int.tdiv 1 ([x].prod) = _
        rw [List.prod_singleton]
        by_cases hpos : x = 1
        · rw [if_pos hpos, hpos]
          rfl
        · rw [if_neg hpos]
          by_cases hneg : x = -1
          · rw [if_pos hneg, hneg]
            rfl
          · rw [if_neg hneg]
            have hdiv : (Int.tdiv 1 x).natAbs = 1 / x.natAbs := Int.natAbs_tdiv 1 x
            have hsmall : 1 / x.natAbs = 0 := Nat.div_eq_of_lt (by omega)
            omega
      rw [hone, if_neg hzero, htwo', hquot]
      rfl

theorem divisor_run {f : Int → Int → ML Val} {what : String} (ha : fitsFixnum a = true) (hb : fitsFixnum b = true)
    (hne : b ≠ 0) :
    ((do
      let a ← expectFix (← argvGet [mlMakeFix a, mlMakeFix b] 0) what
      let b ← expectFix (← argvGet [mlMakeFix a, mlMakeFix b] 1) what
      if b = 0 then raiseDivZero what else f a b : ML Val) s) = f a b s := by
  have hfirst : argvGet [mlMakeFix a, mlMakeFix b] 0 = pure (mlMakeFix a) := rfl
  have hsecond : argvGet [mlMakeFix a, mlMakeFix b] 1 = pure (mlMakeFix b) := rfl
  rw [hfirst, pure_bind_run]
  refine (expectFix_run (Val.int?_makeFix ha) _).trans ?_
  rw [hsecond, pure_bind_run]
  refine (expectFix_run (Val.int?_makeFix hb) _).trans ?_
  rw [if_neg hne]

theorem primQuotient_res (ha : fitsFixnum a = true) (hb : fitsFixnum b = true) (hne : b ≠ 0) :
    (primQuotient [mlMakeFix a, mlMakeFix b] s).Ends
      (if a = mFixMin ∧ b = -1 then .error .errOverflow else .ok (mlMakeFix (a.tdiv b))) := by
  have hrun : (primQuotient [mlMakeFix a, mlMakeFix b] s).res
      = ((if fitsFixnum (a.tdiv b) then makeFix (a.tdiv b) else raiseOverflow "quotient" : ML Val) s).res :=
    (congrArg Run.res (divisor_run ha hb hne)).trans (int64Div_res ha hne _)
  have hfits := fits_tdiv ha hne
  by_cases hleast : a = mFixMin ∧ b = -1
  · rw [if_pos hleast]
    rw [if_neg fun h => hfits.1 h hleast] at hrun
    exact hrun
  · rw [if_neg hleast]
    rw [if_pos (hfits.2 hleast)] at hrun
    exact hrun

theorem int64Rem_res {α : Type} (ha : fitsFixnum a = true) (hb : b ≠ 0) (f : Int → ML α) :
    ((int64Rem a b >>= f) s).res = (f (a.tmod b) s).res := by
  unfold int64Rem
  rw [bind_assoc]
  exact int64Div_res ha hb _

theorem primRemainder_res (ha : fitsFixnum a = true) (hb : fitsFixnum b = true) (hne : b ≠ 0) :
    (primRemainder [mlMakeFix a, mlMakeFix b] s).res = .ok (mlMakeFix (a.tmod b)) := by
  have hleast : ¬ (a = int64Min ∧ b = -1) := by
    rintro ⟨h, -⟩
    rw [fits_iff, h] at ha
    simp only [int64Min] at ha
    omega
  refine (congrArg Run.res (divisor_run ha hb hne)).trans ?_
  rw [if_neg hleast]
  exact int64Rem_res ha hne _

/-- The remainder with the sign of the divisor. -/
def floorMod (a b : Int) : Int := if a.tmod b ≠ 0 ∧ (a.tmod b < 0) ≠ (b < 0) then a.tmod b + b else a.tmod b

theorem primModulo_res (ha : fitsFixnum a = true) (hb : fitsFixnum b = true) (hne : b ≠ 0) :
    (primModulo [mlMakeFix a, mlMakeFix b] s).res = .ok (mlMakeFix (floorMod a b)) := by
  have hr : fitsFixnum (a.tmod b) = true := fits_tmod ha
  refine (congrArg Run.res (divisor_run ha hb hne)).trans ((int64Rem_res ha hne _).trans ?_)
  unfold floorMod
  by_cases hsign : a.tmod b ≠ 0 ∧ (a.tmod b < 0) ≠ (b < 0)
  · rw [if_pos hsign, if_pos hsign]
    exact int64Op_res (int64_of_fits (fits_add_of_signs hr hb hsign.2)) _
  · rw [if_neg hsign, if_neg hsign]
    rfl

theorem tmod_laws (hb : b ≠ 0) :
    a = b * a.tdiv b + a.tmod b ∧ (a.tmod b).natAbs < b.natAbs ∧ (0 ≤ a → 0 ≤ a.tmod b) ∧ (a ≤ 0 → a.tmod b ≤ 0) := by
  have hneg : (-a).tmod b = -a.tmod b := Int.neg_tmod a b
  refine ⟨(Int.mul_tdiv_add_tmod a b).symm, ?_, Int.tmod_nonneg b, fun h => ?_⟩
  · rw [Int.natAbs_tmod]
    exact Nat.mod_lt _ (Int.natAbs_pos.2 hb)
  · have := Int.tmod_nonneg b (Int.neg_nonneg.2 h)
    omega

theorem floorMod_laws (hb : b ≠ 0) :
    b ∣ floorMod a b - a ∧ (floorMod a b).natAbs < b.natAbs ∧ (0 < b → 0 ≤ floorMod a b) ∧
      (b < 0 → floorMod a b ≤ 0) := by
  obtain ⟨hdiv, hlt, -, -⟩ := tmod_laws (a := a) hb
  have hdvd : b ∣ a.tmod b - a := ⟨-a.tdiv b, by rw [Int.mul_neg]; omega⟩
  unfold floorMod
  by_cases hsign : a.tmod b ≠ 0 ∧ (a.tmod b < 0) ≠ (b < 0)
  · rw [if_pos hsign]
    have hdvd' : b ∣ a.tmod b + b - a := by
      have := Int.dvd_add hdvd (Int.dvd_refl b)
      rwa [show a.tmod b - a + b = a.tmod b + b - a by omega] at this
    obtain ⟨hzero, hsign⟩ := hsign
    refine ⟨hdvd', ?_, ?_, ?_⟩ <;> by_cases hneg : a.tmod b < 0 <;> by_cases hbneg : b < 0 <;>
      simp [hneg, hbneg] at hsign <;> omega
  · rw [if_neg hsign]
    refine ⟨hdvd, hlt, ?_, ?_⟩ <;> by_cases hneg : a.tmod b < 0 <;> by_cases hbneg : b < 0 <;>
      simp [hneg, hbneg] at hsign <;> omega

end Divisions

/-- The laws of the four divisions. -/
theorem division_laws (s : State) :
    (∀ a b, fitsFixnum a = true → fitsFixnum b = true → b ≠ 0 →
      (primQuotient [mlMakeFix a, mlMakeFix b] s).Ends
        (if a = mFixMin ∧ b = -1 then .error .errOverflow else .ok (mlMakeFix (a.tdiv b))) ∧
      (∃ r, (primRemainder [mlMakeFix a, mlMakeFix b] s).res = .ok (mlMakeFix r) ∧
        a = b * a.tdiv b + r ∧ r.natAbs < b.natAbs ∧ (0 ≤ a → 0 ≤ r) ∧ (a ≤ 0 → r ≤ 0)) ∧
      ∃ m, (primModulo [mlMakeFix a, mlMakeFix b] s).res = .ok (mlMakeFix m) ∧
        b ∣ m - a ∧ m.natAbs < b.natAbs ∧ (0 < b → 0 ≤ m) ∧ (b < 0 → m ≤ 0)) ∧
    (∀ argv : List Val, (∀ v ∈ argv, v.InRange) → 2 ≤ argv.length → Scans undivided quotientOf argv (primDiv argv) s) ∧
    ∀ v : Val, v.InRange → (primDiv [v] s).res = (primDiv [mlMakeFix 1, v] s).res := by
  refine ⟨fun a b ha hb hne => ⟨primQuotient_res ha hb hne, ?_, ?_⟩, ?_, primDiv_one s⟩
  · exact ⟨_, primRemainder_res ha hb hne, tmod_laws hne⟩
  · exact ⟨_, primModulo_res ha hb hne, floorMod_laws hne⟩
  · exact fun argv hargs hlen => scans_of_ends (primDiv_ends hargs hlen)

theorem division_laws_seven :
    ∃ m, (primModulo [mlMakeFix (-7), mlMakeFix 2] .created).res = .ok (mlMakeFix m) ∧
      2 ∣ m - -7 ∧ m.natAbs < Int.natAbs 2 ∧ ((0 : Int) < 2 → 0 ≤ m) ∧ ((2 : Int) < 0 → m ≤ 0) :=
  ((division_laws .created).1 (-7) 2 (by decide) (by decide) (by decide)).2.2

/-! ## Comparison chains -/

/-- The relation a comparison operator stands for. -/
def CmpOp.Rel (op : CmpOp) (x y : Int) : Prop :=
  match op with
  | .eq => x = y
  | .lt => x < y
  | .gt => x > y
  | .le => x ≤ y
  | .ge => x ≥ y

instance {op : CmpOp} {x y : Int} : Decidable (op.Rel x y) :=
  match op with
  | .eq => inferInstanceAs (Decidable (x = y))
  | .lt => inferInstanceAs (Decidable (x < y))
  | .gt => inferInstanceAs (Decidable (x > y))
  | .le => inferInstanceAs (Decidable (x ≤ y))
  | .ge => inferInstanceAs (Decidable (x ≥ y))

section Chains
variable {op : CmpOp} {name : String} {argv : List Val} {s : State} {x y prev : Int} {v : Val}

theorem CmpOp.holds_iff : op.holds x y = true ↔ op.Rel x y := by
  cases op <;> simp [CmpOp.holds, CmpOp.Rel]

/-- A type error exactly when some argument is no fixnum, and otherwise whether the relation
holds between neighbours of `xs` and the arguments. -/
def ChecksAll (op : CmpOp) (xs : List Int) (argv : List Val) (res : Except (Halt Status) Val) : Prop :=
  (res = .error (.err .errType) ↔ ∃ v ∈ argv, v.int? = none) ∧
  ((∀ v ∈ argv, v.int? ≠ none) → res = .ok (mlMakeBool (decide ((xs ++ ints argv).IsChain op.Rel))))

/-- Up to the first argument that is no fixnum the relation holds between neighbours. -/
def OrderedBefore (op : CmpOp) (xs : List Int) (argv : List Val) : Prop :=
  ∀ pre v post, argv = pre ++ v :: post → v.int? = none → (∀ w ∈ pre, w.int? ≠ none) → (xs ++ ints pre).IsChain op.Rel

theorem exists_first_none (h : ∃ v ∈ argv, v.int? = none) :
    ∃ pre v post, argv = pre ++ v :: post ∧ v.int? = none ∧ ∀ w ∈ pre, w.int? ≠ none := by
  induction argv with
  | nil =>
    obtain ⟨v, hv, -⟩ := h
    cases hv
  | cons w argv ih =>
    by_cases hw : w.int? = none
    · exact ⟨[], w, argv, rfl, hw, nofun⟩
    · have hrest : ∃ v ∈ argv, v.int? = none := by
        obtain ⟨v, hv, hnone⟩ := h
        rcases List.mem_cons.1 hv with rfl | hv
        · exact absurd hnone hw
        · exact ⟨v, hv, hnone⟩
      obtain ⟨pre, v, post, rfl, hv, hpre⟩ := ih hrest
      refine ⟨w :: pre, v, post, rfl, hv, ?_⟩
      intro u hu
      rcases List.mem_cons.1 hu with rfl | hu
      · exact hw
      · exact hpre u hu

/-- An argument that is no fixnum, where it is looked at. -/
theorem checksAll_none {xs : List Int} (hv : v.int? = none) (hxs : xs.IsChain op.Rel) :
    ChecksAll op xs (v :: argv) (.error (.err .errType)) ∧ OrderedBefore op xs (v :: argv) := by
  refine ⟨⟨⟨fun _ => ⟨v, by simp, hv⟩, fun _ => rfl⟩, fun hall => absurd hv (hall v (by simp))⟩, ?_⟩
  intro pre w post heq _ hpre
  cases pre with
  | nil => simpa [ints] using hxs
  | cons u pre =>
    cases heq
    exact absurd hv (hpre v (by simp))

/-- An argument that is a fixnum goes with those before it. -/
theorem checksAll_cons (op : CmpOp) (xs : List Int) (argv : List Val) (res : Except (Halt Status) Val)
    (hv : v.int? = some y) :
    (ChecksAll op xs (v :: argv) res ↔ ChecksAll op (xs ++ [y]) argv res) ∧
    (OrderedBefore op xs (v :: argv) ↔ OrderedBefore op (xs ++ [y]) argv) := by
  have hne : v.int? ≠ none := by simp [hv]
  have hints : ∀ l, xs ++ ints (v :: l) = xs ++ [y] ++ ints l := fun l => by rw [ints_cons hv]; simp
  constructor
  · have hall : (∀ w ∈ v :: argv, w.int? ≠ none) ↔ ∀ w ∈ argv, w.int? ≠ none := by simp [hne]
    have hex : (∃ w ∈ v :: argv, w.int? = none) ↔ ∃ w ∈ argv, w.int? = none := by simp [hne]
    unfold ChecksAll
    rw [hex, hall, hints]
  · constructor
    · intro h pre w post heq hw hpre
      rw [← hints]
      apply h (v :: pre) w post (by rw [heq]; rfl) hw
      intro u hu
      rcases List.mem_cons.1 hu with rfl | hu
      · exact hne
      · exact hpre u hu
    · intro h pre w post heq hw hpre
      cases pre with
      | nil =>
        cases heq
        exact absurd hw hne
      | cons u pre =>
        cases heq
        rw [hints]
        exact h pre w post rfl hw fun z hz => hpre z (by simp [hz])

/-- After a comparison that fails, nothing more is checked. -/
theorem checksAll_false {xs : List Int} (hxs : ¬ xs.IsChain op.Rel) :
    ChecksAll op xs argv (.ok mvFalse) ↔ OrderedBefore op xs argv := by
  have hlong : ∀ ys, ¬ (xs ++ ys).IsChain op.Rel := fun ys h => hxs h.left_of_append
  constructor
  · rintro ⟨htype, -⟩ pre v post rfl hv -
    have := htype.2 ⟨v, by simp, hv⟩
    cases this
  · intro h
    have hall : ∀ v ∈ argv, v.int? ≠ none := by
      intro v hv hnone
      obtain ⟨pre, w, post, heq, hw, hpre⟩ := exists_first_none ⟨v, hv, hnone⟩
      exact hlong _ (h pre w post heq hw hpre)
    refine ⟨⟨nofun, ?_⟩, fun _ => ?_⟩
    · rintro ⟨v, hv, hnone⟩
      exact absurd hnone (hall v hv)
    · rw [decide_eq_false (hlong _)]
      rfl

theorem cmpLoop_checks (xs : List Int) (hxs : (xs ++ [prev]).IsChain op.Rel) :
    ChecksAll op (xs ++ [prev]) argv (cmpLoop op name argv prev s).res ↔ OrderedBefore op (xs ++ [prev]) argv := by
  induction argv generalizing xs prev with
  | nil =>
    have hdone : (xs ++ [prev] ++ ints []).IsChain op.Rel := by simpa [ints] using hxs
    have hempty : (∃ v ∈ ([] : List Val), v.int? = none) ↔ False := by simp
    constructor
    · intro _ pre v post heq
      cases pre <;> cases heq
    · intro _
      refine ⟨⟨nofun, fun h => (hempty.1 h).elim⟩, fun _ => ?_⟩
      rw [decide_eq_true hdone]
      rfl
  | cons v argv ih =>
    cases hv : v.int? with
    | none =>
      have hres : (cmpLoop op name (v :: argv) prev s).res = .error (.err .errType) := expectFix_type hv _
      rw [hres]
      exact iff_of_true (checksAll_none hv hxs).1 (checksAll_none hv hxs).2
    | some y =>
      have hres : (cmpLoop op name (v :: argv) prev s).res
          = ((if op.holds prev y then cmpLoop op name argv y else pure mvFalse : ML Val) s).res :=
        congrArg Run.res (expectFix_run hv _)
      have hcons := checksAll_cons op (xs ++ [prev]) argv (cmpLoop op name (v :: argv) prev s).res hv
      rw [hcons.1, hcons.2, hres]
      have hstep : (xs ++ [prev] ++ [y]).IsChain op.Rel ↔ op.Rel prev y := by
        rw [List.append_assoc, List.singleton_append, List.isChain_append_cons_cons]
        exact ⟨fun h => h.2.1, fun h => ⟨hxs, h, .singleton y⟩⟩
      by_cases hrel : op.holds prev y = true
      · rw [if_pos hrel]
        exact ih _ (hstep.2 (CmpOp.holds_iff.1 hrel))
      · rw [if_neg hrel]
        exact checksAll_false fun h => hrel (CmpOp.holds_iff.2 (hstep.1 h))

end Chains

/-- A comparison chain checks every argument exactly when no comparison fails before the
first argument that is no fixnum. -/
theorem cmpChain_checks (op : CmpOp) (name : String) (argv : List Val) (s : State) (hlen : 2 ≤ argv.length) :
    ChecksAll op [] argv (cmpChain op name argv s).res ↔ OrderedBefore op [] argv := by
  obtain ⟨v, argv, rfl⟩ : ∃ v l, argv = v :: l := by
    match argv, hlen with
    | v :: l, _ => exact ⟨v, l, rfl⟩
  cases hv : v.int? with
  | none =>
    have hres : (cmpChain op name (v :: argv) s).res = .error (.err .errType) := expectFix_type hv _
    rw [hres]
    exact iff_of_true (checksAll_none hv .nil).1 (checksAll_none hv .nil).2
  | some x =>
    have hres : (cmpChain op name (v :: argv) s).res = (cmpLoop op name argv x s).res :=
      congrArg Run.res (expectFix_run hv _)
    have hcons := checksAll_cons op [] argv (cmpLoop op name argv x s).res hv
    rw [hres, hcons.1, hcons.2]
    exact cmpLoop_checks [] (.singleton x)

theorem cmpChain_checks_two :
    ChecksAll .lt [] [mlMakeFix 1, mvNil] (primNumLt [mlMakeFix 1, mvNil] .created).res ↔
      OrderedBefore .lt [] [mlMakeFix 1, mvNil] :=
  cmpChain_checks .lt "<" [mlMakeFix 1, mvNil] .created (by decide)

/-- `(< 2 1 'a)` is `#f`. -/
theorem cmpChain_hides_type : ¬ ∀ (op : CmpOp) (name : String) (argv : List Val) (s : State), 2 ≤ argv.length →
    ChecksAll op [] argv (cmpChain op name argv s).res := by
  intro h
  have htype := (h .lt "<" [mlMakeFix 2, mlMakeFix 1, .sym 13] .created (by decide)).1.2 ⟨.sym 13, by simp, rfl⟩
  have hres : (cmpChain .lt "<" [mlMakeFix 2, mlMakeFix 1, .sym 13] .created).res = .ok mvFalse := by decide
  rw [hres] at htype
  cases htype

end Microlisp
