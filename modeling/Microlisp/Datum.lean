import Microlisp.Safety.Memory
/-!
# Data

What a text denotes, apart from where in the heap it is kept. A value shows a datum when
the pairs and strings that the datum is made of are in the heap, at addresses of some set.
-/
namespace Microlisp

open Prog

inductive Datum where
  | fix (x : Int)
  | nil
  | bool (b : Bool)
  | sym (name : Bytes)
  | str (bytes : Bytes)
  | pair (a d : Datum)
deriving DecidableEq, Repr

/-- The elements, then the tail. -/
def Datum.list (elems : List Datum) (tail : Datum) : Datum := elems.foldr .pair tail

/-- The value `v` shows the datum, with all its objects in `K`. -/
def Heap.Shows (h : Heap) (names : List Bytes) (K : Nat → Prop) : Datum → Val → Prop
  | .fix x, v => fitsFixnum x = true ∧ v = mlMakeFix x
  | .nil, v => v = mvNil
  | .bool b, v => v = mlMakeBool b
  | .sym name, v => ∃ i, v = .sym i ∧ names.findIdx? (fun e => e == name) = some i.toNat
  | .str bytes, v => ∃ a, v = .obj a ∧ K a ∧ h.get a = some (.string bytes)
  | .pair x y, v => ∃ a p q, v = .obj a ∧ K a ∧ h.get a = some (.pair p q) ∧ h.Shows names K x p ∧ h.Shows names K y q

/-- In this state. -/
def State.Shows (s : State) (K : Nat → Prop) : Datum → Val → Prop := s.heap.Shows s.symtab.entries K

/-- The objects that data are made of. -/
def Obj.isData (o : Obj) : Bool := o.isPair || o.isString

section Shows
variable {h h' : Heap} {names names' : List Bytes} {K K' : Nat → Prop} {d : Datum} {v : Val}

/-- A heap in which the objects of the datum are the same, and a table that has grown. -/
theorem Heap.Shows.transfer (hv : h.Shows names K d v) (hobj : ∀ a o, K a → h.get a = some o → o.isData = true →
    h'.get a = some o)
    (hnames : names <+: names') (hK : ∀ a, K a → (∃ o, h.get a = some o) → K' a) : h'.Shows names' K' d v := by
  induction d generalizing v with
  | fix x => exact hv
  | nil => exact hv
  | bool b => exact hv
  | sym name =>
    obtain ⟨i, hi, hfind⟩ := hv
    obtain ⟨more, rfl⟩ := hnames
    exact ⟨i, hi, by rw [List.findIdx?_append, hfind]; rfl⟩
  | str bytes =>
    obtain ⟨a, ha, hka, ho⟩ := hv
    exact ⟨a, ha, hK a hka ⟨_, ho⟩, hobj a _ hka ho rfl⟩
  | pair x y ihx ihy =>
    obtain ⟨a, p, q, ha, hka, ho, hx, hy⟩ := hv
    exact ⟨a, p, q, ha, hK a hka ⟨_, ho⟩, hobj a _ hka ho rfl, ihx hx, ihy hy⟩

theorem Heap.Shows.mono (hv : h.Shows names K d v) (hK : ∀ a, K a → K' a) : h.Shows names K' d v :=
  hv.transfer (fun _ _ _ ho _ => ho) (List.prefix_refl _) fun a ha _ => hK a ha

theorem Heap.Shows.valOk (hv : h.Shows names K d v) : h.ValOk v := by
  cases d with
  | fix x =>
    obtain ⟨hx, rfl⟩ := hv
    show fitsFixnum (mlFixInt (BitVec.ofInt 61 x)) = true
    rw [mlFixInt_ofInt (by simpa [fitsFixnum] using hx)]
    exact hx
  | nil =>
    cases hv
    trivial
  | bool b =>
    cases hv
    cases b <;> trivial
  | sym name =>
    obtain ⟨i, rfl, -⟩ := hv
    trivial
  | str bytes =>
    obtain ⟨a, rfl, -, ho⟩ := hv
    exact ⟨_, ho, rfl⟩
  | pair x y =>
    obtain ⟨a, p, q, rfl, -, ho, -⟩ := hv
    exact ⟨_, ho, rfl⟩

theorem Heap.Shows.ne_eof (hv : h.Shows names K d v) : v ≠ mvEof := by
  rintro rfl
  cases d with
  | bool b => cases b <;> cases hv
  | fix x => cases hv.2
  | nil => cases hv
  | sym name =>
    obtain ⟨i, hi, -⟩ := hv
    cases hi
  | str bytes =>
    obtain ⟨a, ha, -⟩ := hv
    cases ha
  | pair x y =>
    obtain ⟨a, p, q, ha, -⟩ := hv
    cases ha

theorem Heap.shows_fix {p : BitVec 61} (hv : h.Shows names K d (.fix p)) : d = .fix (mlFixInt p) := by
  cases d with
  | fix x =>
    obtain ⟨hx, hp⟩ := hv
    cases hp
    rw [mlFixInt_ofInt (by simpa [fitsFixnum] using hx)]
  | bool b => cases b <;> cases hv
  | _ => simp [Heap.Shows] at hv

theorem Heap.shows_imm {i : Imm} (hv : h.Shows names K d (.imm i)) :
    (d = .nil ∧ i = .nil) ∨ (d = .bool true ∧ i = .tt) ∨ (d = .bool false ∧ i = .ff) := by
  cases d with
  | nil =>
    cases hv
    exact .inl ⟨rfl, rfl⟩
  | bool b =>
    cases b <;> cases hv
    · exact .inr (.inr ⟨rfl, rfl⟩)
    · exact .inr (.inl ⟨rfl, rfl⟩)
  | _ => simp [Heap.Shows, mlMakeFix] at hv

theorem Heap.shows_sym {i : UInt32} (hv : h.Shows names K d (.sym i)) : names[i.toNat]?.map Datum.sym = some d := by
  cases d with
  | sym name =>
    obtain ⟨j, hj, hfind⟩ := hv
    cases hj
    obtain ⟨hlt, hname, -⟩ := List.findIdx?_eq_some_iff_getElem.1 hfind
    rw [List.getElem?_eq_getElem hlt, ← beq_iff_eq.1 hname]
    rfl
  | bool b => cases b <;> cases hv
  | _ => simp [Heap.Shows, mlMakeFix] at hv

theorem Heap.shows_obj {a : Nat} (hv : h.Shows names K d (.obj a)) :
    K a ∧ ((∃ bytes, d = .str bytes ∧ h.get a = some (.string bytes)) ∨
    ∃ x y p q, d = .pair x y ∧ h.get a = some (.pair p q) ∧ h.Shows names K x p ∧ h.Shows names K y q) := by
  cases d with
  | str bytes =>
    obtain ⟨_, ⟨⟩, hka, ho⟩ := hv
    exact ⟨hka, .inl ⟨bytes, rfl, ho⟩⟩
  | pair x y =>
    obtain ⟨_, p, q, ⟨⟩, hka, ho, hx, hy⟩ := hv
    exact ⟨hka, .inr ⟨x, y, p, q, rfl, ho, hx, hy⟩⟩
  | bool b => cases b <;> cases hv
  | _ => simp [Heap.Shows, mlMakeFix] at hv

/-- A value shows one datum only. -/
theorem Heap.Shows.unique {d' : Datum} (hv : h.Shows names K d v) (hv' : h.Shows names K' d' v) : d = d' := by
  induction d generalizing d' v with
  | pair x y ihx ihy =>
    obtain ⟨a, p, q, rfl, -, ho, hx, hy⟩ := hv
    rcases (Heap.shows_obj hv').2 with ⟨bytes, -, ho'⟩ | ⟨x', y', p', q', rfl, ho', hx', hy'⟩
    · rw [ho] at ho'
      cases ho'
    · rw [ho] at ho'
      cases ho'
      rw [ihx hx hx', ihy hy hy']
  | str bytes =>
    obtain ⟨a, rfl, -, ho⟩ := hv
    rcases (Heap.shows_obj hv').2 with ⟨bytes', rfl, ho'⟩ | ⟨x', y', p', q', -, ho', -⟩
    · rw [ho] at ho'
      cases ho'
      rfl
    · rw [ho] at ho'
      cases ho'
  | sym name =>
    obtain ⟨i, rfl, hfind⟩ := hv
    have hv : h.Shows names K (.sym name) (.sym i) := ⟨i, rfl, hfind⟩
    exact Option.some.inj ((Heap.shows_sym hv).symm.trans (Heap.shows_sym hv'))
  | fix x =>
    obtain ⟨hx, rfl⟩ := hv
    have hv : h.Shows names K (.fix x) (mlMakeFix x) := ⟨hx, rfl⟩
    rw [Heap.shows_fix hv, Heap.shows_fix hv']
  | nil =>
    cases hv
    rcases Heap.shows_imm hv' with ⟨rfl, -⟩ | ⟨-, hi⟩ | ⟨-, hi⟩
    · rfl
    · cases hi
    · cases hi
  | bool b =>
    cases hv
    cases b <;> rcases Heap.shows_imm hv' with ⟨-, hi⟩ | ⟨hd, hi⟩ | ⟨hd, hi⟩ <;> first | cases hi; done | exact hd.symm

end Shows
end Microlisp
