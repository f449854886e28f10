import Mathlib.Data.List.Nodup
/-!
# Rosters

Distinct names in a list, each of which stands for its position. New names are added at the
end, so a name keeps its number.
-/

/-- Names without repetition. -/
structure Roster (α : Type) where
  names : List α
  nodup : names.Nodup

namespace Roster

variable {α : Type} {d d' : Roster α} {a b : α} {k l : Nat}

/-- The name with this number. -/
def name? (d : Roster α) (k : Nat) : Option α := d.names[k]?

theorem name?_inj (ha : d.name? k = some a) (hb : d.name? l = some a) : k = l := by
  obtain ⟨hk, rfl⟩ := List.getElem?_eq_some_iff.1 ha
  obtain ⟨hl, heq⟩ := List.getElem?_eq_some_iff.1 hb
  exact (d.nodup.getElem_inj_iff).1 heq.symm

/-! ## Looking names up -/

section Lookup
variable [BEq α] [LawfulBEq α]

/-- The number of this name. -/
def number? (d : Roster α) (a : α) : Option Nat := d.names.findIdx? fun b => b == a

/-- Numbers and names are the same way round. -/
theorem number?_eq_some : d.number? a = some k ↔ d.name? k = some a := by
  have hfound : ∀ {k}, d.number? a = some k → d.name? k = some a := by
    intro k h
    obtain ⟨hk, heq, -⟩ := List.findIdx?_eq_some_iff_getElem.1 h
    exact List.getElem?_eq_some_iff.2 ⟨hk, eq_of_beq heq⟩
  refine ⟨hfound, fun h => ?_⟩
  cases hn : d.number? a with
  | some l => rw [name?_inj (hfound hn) h]
  | none =>
    have hmem := List.findIdx?_eq_none_iff.1 hn a (List.mem_of_getElem? h)
    rw [beq_self_eq_true] at hmem
    cases hmem

theorem number?_eq_none : d.number? a = none ↔ a ∉ d.names := by
  refine List.findIdx?_eq_none_iff.trans ⟨fun h ha => ?_, fun h b hb => ?_⟩
  · have hself := h a ha
    rw [beq_self_eq_true] at hself
    cases hself
  · exact beq_eq_false_iff_ne.2 fun heq => h (heq ▸ hb)

/-- A new name, under the next number. -/
def add (d : Roster α) (a : α) (h : d.number? a = none) : Roster α where
  names := d.names ++ [a]
  nodup := by
    refine List.nodup_append.2 ⟨d.nodup, List.pairwise_singleton _ _, fun b hb c hc => ?_⟩
    rw [List.mem_singleton.1 hc]
    rintro rfl
    exact number?_eq_none.1 h hb

end Lookup

/-! ## Growth -/

/-- `d'` has grown from `d`. -/
def Extends (d d' : Roster α) : Prop := d.names <+: d'.names

/-- A number keeps its name. -/
theorem Extends.name? (h : d.Extends d') (hk : d.name? k = some a) : d'.name? k = some a := by
  obtain ⟨hlt, rfl⟩ := List.getElem?_eq_some_iff.1 hk
  exact List.prefix_iff_getElem?.1 h k hlt

/-- Names are equal when their numbers are, also where one of them was given out later. -/
theorem Extends.number_iff (h : d.Extends d') (hk : d.name? k = some a) (hl : d'.name? l = some b) : k = l ↔ a = b := by
  constructor
  · rintro rfl
    exact Option.some.inj ((h.name? hk).symm.trans hl)
  · rintro rfl
    exact name?_inj (h.name? hk) hl

end Roster
