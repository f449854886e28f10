import Microlisp.Lockstep.Unseen
/-!
# The line of the recorded error

Runs stay alike that read the same text on different lines.
-/
namespace Microlisp

open Prog

/-- The recorded error on another line. -/
def State.onLine (s : State) (l : Nat) : State := { s with lastError := { s.lastError with line := l } }

/-- The states differ in the line of the recorded error alone. -/
def State.SameButLine (s t : State) : Prop := ∃ l, t = s.onLine l

/-- The programs do the same, whatever line is recorded. -/
abbrev Lineless (bl br : Halt Status → Prop) {α : Type} (m m' : ML α) : Prop := Sim bl br State.SameButLine m m'

section Lineless
variable {bl br : Halt Status → Prop} {c : Config} {α : Type}

theorem State.SameButLine.refl (s : State) : s.SameButLine s := ⟨s.lastError.line, rfl⟩

theorem sameButLine_eq :
    State.SameButLine = State.SameButSeen (fun e e' => ∃ l, e' = { e with line := l }) (· = ·) := by
  funext s t
  apply propext
  constructor
  · rintro ⟨l, rfl⟩
    exact ⟨_, _, ⟨l, rfl⟩, rfl, rfl⟩
  · rintro ⟨_, _, ⟨l, rfl⟩, rfl, rfl⟩
    exact ⟨l, rfl⟩

/-- A reading that the line does not show in. -/
theorem lineless_gets {g : State → α} (hg : ∀ s l, g (s.onLine l) = g s) : Lineless bl br (gets g) (gets g) := by
  apply Sim.gets
  rintro s _ ⟨l, rfl⟩
  exact (hg s l).symm

theorem lineless_modify {g : State → State} (hg : ∀ s l, ∃ l', g (s.onLine l) = (g s).onLine l') :
    Lineless bl br (modify g) (modify g) := by
  apply Sim.modify
  rintro s _ ⟨l, rfl⟩
  exact hg s l

/-- Calls go in lockstep, whatever the schedule, as long as it does not depend on the line. -/
theorem lockstep_line (hdue : ∀ s l, c.collectDue (s.onLine l) = c.collectDue s) :
    LockstepCall bl br c c (· = ·) State.SameButLine := by
  rw [sameButLine_eq]
  apply lockstep_unseen
  · exact fun e => ⟨e.line, rfl⟩
  · rintro a _ w rfl
    rfl
  · rintro s _ ⟨_, _, ⟨l, rfl⟩, rfl, rfl⟩
    exact (hdue s l).symm

theorem lineless_rawAllocOrFail {size : Nat} : Lineless bl br (rawAllocOrFail c size) (rawAllocOrFail c size) := by
  rw [Lineless, sameButLine_eq]
  exact unseen_rawAllocOrFail

theorem lineless_mlGcProtect {v : Val} : Lineless bl br (mlGcProtect c v) (mlGcProtect c v) := by
  rw [Lineless, sameButLine_eq]
  exact unseen_mlGcProtect

theorem lineless_gcAlloc (hdue : ∀ s l, c.collectDue (s.onLine l) = c.collectDue s) {size : Nat} {o : Obj} :
    Lineless bl br (gcAlloc c size o) (gcAlloc c size o) := (lockstep_line hdue).gcAlloc size o

end Lineless
end Microlisp
