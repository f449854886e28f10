import Microlisp.Lockstep.Unseen
import Microlisp.Transcript
/-!
# Output goes one way

A call appends to the output and records its error; it reads neither. So what calls return, and
what they append, does not depend on what has been written or reported before.
-/
namespace Microlisp

open Prog

/-- The schedule of collections looks at neither. -/
def Config.Unseeing (c : Config) : Prop := ∀ s e o, c.collectDue (s.showing e o) = c.collectDue s

section Output
variable {c : Config} {s t : State} {n : Nat} {q : Request} {log : List (Request × Outcome)} {events : List Event}

/-- The same bytes after `o` and after `o'`. -/
def Appended (o o' a b : Bytes) : Prop := ∃ w, a = o ++ w ∧ b = o' ++ w

theorem lockstep_output (hc : c.Unseeing) (o o' : Bytes) :
    LockstepCall (fun _ => False) (fun _ => False) c c (· = ·) (State.SameButSeen (· = ·) (Appended o o')) := by
  apply lockstep_unseen
  · exact fun _ => rfl
  · rintro _ _ w ⟨v, rfl, rfl⟩
    exact ⟨v ++ w, List.append_assoc .., List.append_assoc ..⟩
  · rintro s _ ⟨e, o, -, -, rfl⟩
    exact (hc s e o).symm

/-- A call starts with another error, whichever there was. -/
theorem run_error (e e' : MlError) (o : Bytes) : q.run c n (s.showing e o) = q.run c n (s.showing e' o) := by
  unfold Request.run microlispEval
  split <;> rfl

theorem run_output (hc : c.Unseeing) {r : Outcome} (h : (q.run c n s).Ends r) (e : MlError) (o : Bytes) :
    ∃ w, (q.run c n s).state.output = s.output ++ w ∧ (q.run c n (s.showing e o)).Ends r ∧
      (q.run c n (s.showing e o)).state = (q.run c n s).state.showing (q.run c n s).state.lastError (o ++ w) := by
  have hstart : s.SameButSeen (· = ·) (Appended s.output o) (s.showing s.lastError o) :=
    ⟨s.lastError, o, rfl, ⟨[], (List.append_nil _).symm, (List.append_nil _).symm⟩, rfl⟩
  have hsim : SimAt (fun _ => False) (fun _ => False) (State.SameButSeen (· = ·) (Appended s.output o))
      (q.run c n) (q.run c n)
      s (s.showing s.lastError o) := microlispEval_lockstep (lockstep_output hc s.output o) n _ _ _ s _ hstart
  obtain ⟨hends, e', o', rfl, ⟨w, hw, rfl⟩, hstate⟩ := hsim.ends h (fun _ _ => id) fun _ => id
  rw [run_error s.lastError e o] at hends hstate
  exact ⟨w, hw, hends, hstate⟩

/-- Calls that return, made after any other output and any other error, return the same, append the
same, and leave the same state but for what was there before them. -/
theorem transcript_output (hc : c.Unseeing) (h : Transcript c s log events t) (hlog : log ≠ [])
    (e : MlError) (o : Bytes) :
    ∃ w events', t.output = s.output ++ w ∧
      Transcript c (s.showing e o) log events' (t.showing t.lastError (o ++ w)) := by
  induction h with
  | start => exact absurd rfl hlog
  | @call log events t h n q r hr ih =>
    cases h with
    | start =>
      obtain ⟨w, hw, hends, hstate⟩ := run_output hc hr e o
      refine ⟨w, (q.run c n (s.showing e o)).trace, hw, ?_⟩
      rw [← hstate]
      exact .call .start n q hends
    | @call log events u h' m q' r' hr' =>
      obtain ⟨v, events', hv, ht⟩ := ih (by simp)
      obtain ⟨w, hw, hends, hstate⟩ := run_output hc hr (q'.run c m u).state.lastError (o ++ v)
      have hcall := ht.call n q hends
      rw [hstate, List.append_assoc o v w] at hcall
      exact ⟨v ++ w, _, by rw [hw, hv, List.append_assoc], hcall⟩

end Output

/-- It has no result: `display` returns an unspecified value. -/
def displayRequest : Request := ⟨some (ascii "(display 'a)"), 12, true⟩

theorem transcript_output_display : ∃ events t,
    Transcript (.fresh none) ((State.fresh none).showing ⟨ascii "old", 1, 1⟩ (ascii "old"))
      [(displayRequest, .ok none)] events t ∧
      t.output = ascii "olda" := by
  have hdue : (Config.fresh none).Unseeing := fun _ _ _ => rfl
  have hends : (displayRequest.run (.fresh none) 9 (.fresh none)).Ends (.ok none) :=
    show (displayRequest.run (.fresh none) 9 (.fresh none)).res = .ok none by decide +kernel
  have hout : (displayRequest.run (.fresh none) 9 (.fresh none)).state.output = (State.fresh none).output ++
      ascii "a" := by
    decide +kernel
  obtain ⟨w, events, hw, h⟩ := transcript_output hdue (.call .start 9 displayRequest hends) (by simp)
    ⟨ascii "old", 1, 1⟩ (ascii "old")
  rw [hout] at hw
  refine ⟨events, _, h, ?_⟩
  rw [← List.append_cancel_left hw]
  rfl

end Microlisp
