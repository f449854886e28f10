import Microlisp.Create
import Microlisp.Lockstep.Fuel
/-!
# Calls one after the other

A transcript is a run of calls of `microlisp_eval` on one state, with what each of them
returned. From a new state on, no call of it reads what is gone, and what it returns and writes
does not depend on the allocator, nor on when collections come, as long as there is memory.
-/
namespace Microlisp

open Prog

/-- What a caller hands to `microlisp_eval`. -/
structure Request where
  source : Option Bytes
  sourceLen : Nat
  wantBytes : Bool

/-- What it gets back. -/
abbrev Outcome := Except Status (Option Bytes)

def Request.run (c : Config) (n : Nat) (q : Request) : ML (Option Bytes) :=
  microlispEval c n q.source q.sourceLen q.wantBytes

/-- Calls made from `s`, each with its outcome; what they did; and the state that they leave. Every one
of them returns: a call that reads a frame already freed gets stuck, and no transcript has it. -/
inductive Transcript (c : Config) (s : State) : List (Request × Outcome) → List Event → State → Prop
  | start : Transcript c s [] [] s
  | call {log : List (Request × Outcome)} {events : List Event} {t : State} (h : Transcript c s log events t) (n : Nat)
      (q : Request) {o : Outcome} (ho : (q.run c n t).Ends o) :
      Transcript c s (log ++ [(q, o)]) (events ++ (q.run c n t).trace) (q.run c n t).state

/-- No call of the log ran out of memory, or none can. -/
def Enough (c : Config) (log : List (Request × Outcome)) : Prop :=
  (∀ q, (q, .error .errNomem) ∉ log) ∨ ∀ n size, c.alloc n size = true

section Runs
variable {c c' : Config} {s s' t t' u : State} {log log' : List (Request × Outcome)} {events events' : List Event}
  {q : Request} {o : Outcome}

/-! ## Nothing that is gone is read -/

theorem run_rests (hc : c.Standard) (hs : s.Rests c) (n : Nat) (q : Request) :
    wp Mode.unlessLost (q.run c n) s (fun _ u => u.Rests c) fun _ u => u.Rests c :=
  microlispEval_rests hc n hs

theorem Transcript.rests (h : Transcript c s log events t) (hc : c.Standard) (hs : s.Rests c)
    (hkept : .lostFrame ∉ events) :
    t.Rests c := by
  induction h with
  | start => exact hs
  | @call log events t h n q o ho ih =>
    rw [List.mem_append, not_or] at hkept
    have hrun := (run_rests hc (ih hkept.1) n q fun e he hlost => hkept.2 (hlost ▸ he)).2
    unfold Run.Ends at ho
    rw [ho] at hrun
    cases o with
    | ok => exact hrun
    | error => exact hrun

/-! ## Memory does not show -/

/-- The same calls, with all the memory they ask for. -/
theorem Transcript.unbounded (h : Transcript c s log events t) (hs : Remains s u) (henough : Enough c log) :
    ∃ events' t', Transcript c.unbounded u log events' t' ∧ Remains t t' := by
  induction h with
  | start => exact ⟨[], u, .start, hs⟩
  | @call log events t h n q o ho ih =>
    have hlog : Enough c log := henough.imp_left fun hmem q hq => hmem q (List.mem_append_left _ hq)
    obtain ⟨events', t', h', ht⟩ := ih hlog
    have hsim : SimAt (shortage c) (fun _ => False) Remains (q.run c n) (q.run c.unbounded n) t t' :=
      microlispEval_lockstep lockstep_memory n q.source q.sourceLen q.wantBytes t t' ht
    unfold Run.Ends at ho
    have hstuck : (q.run c n t).res ≠ .error .stuck := by
      rw [ho]
      cases o <;> simp [mapError_ok, mapError_error]
    have hmem : (q.run c n t).res = .error (.err .errNomem) → ∀ n size, c.alloc n size = true := by
      intro hres
      apply henough.resolve_left
      intro hnone
      rw [ho] at hres
      cases o with
      | ok => cases hres
      | error e =>
        cases hres
        exact hnone q (List.mem_append_right _ (List.mem_singleton_self _))
    obtain ⟨hres, hremains⟩ := Remains.of_enough hsim hstuck hmem
    exact ⟨_, _, h'.call n q (hres.symm.trans ho), hremains⟩

/-- The requests determine what is returned, and the state. -/
theorem Transcript.unique (h : Transcript c s log events t) (h' : Transcript c s log' events' t')
    (hreq : log.map Prod.fst = log'.map Prod.fst) : log = log' ∧ t = t' := by
  induction h generalizing log' events' t' with
  | start =>
    cases h' with
    | start => exact ⟨rfl, rfl⟩
    | call => simp at hreq
  | @call log events t h n q o ho ih =>
    cases h' with
    | start => simp at hreq
    | @call log' events' t' h' m q' o' ho' =>
      rw [List.map_append, List.map_append] at hreq
      obtain ⟨hlog, hq⟩ := List.append_inj' hreq rfl
      obtain ⟨rfl, rfl⟩ := ih h' hlog
      cases hq
      obtain ⟨ho, hstate⟩ := microlispEval_once ho ho'
      exact ⟨by rw [ho], hstate⟩

variable {p p' : Platform} {opts opts' : Option Options} {outState outState' : Bool}

/-- In every state that calls on a new state lead to, nothing dangles, and the next call reads no
object that is gone: unless a sweep takes the frame of a call whose leading body forms run. -/
theorem transcript_reads_live (hcreate : microlispStateCreate p opts outState = .ok (c, s))
    (h : Transcript c s log events t)
    (hkept : .lostFrame ∉ events) :
    t.WellFormed c ∧
      ∀ (n : Nat) (q : Request), .lostFrame ∉ (q.run c n t).trace → (q.run c n t).res ≠ .error .stuck := by
  have hbuilt := microlispStateCreate_built hcreate
  have ht : t.Rests c := h.rests hbuilt.standard hbuilt.rests hkept
  refine ⟨ht.wf, ?_⟩
  intro n q hlost hstuck
  have hrun := (run_rests hbuilt.standard ht n q fun e he hx => hlost (hx ▸ he)).2
  rw [hstuck] at hrun
  exact hrun trivial

/-- Two states made for different allocators, or with different thresholds, answer the same calls
alike, if each call returns on both, so that none of them reads a frame already freed: the outcomes,
the output, the diagnostic and the symbols are the same, and so is every object that neither has
collected. -/
theorem transcripts_agree (hcreate : microlispStateCreate p opts outState = .ok (c, s))
    (hcreate' : microlispStateCreate p' opts' outState' = .ok (c', s')) (hsame : c.unbounded = c'.unbounded)
    (h : Transcript c s log events t) (h' : Transcript c' s' log' events' t')
    (hreq : log.map Prod.fst = log'.map Prod.fst)
    (henough : Enough c log) (henough' : Enough c' log') :
    log = log' ∧ t.output = t'.output ∧ t.lastError = t'.lastError ∧ t.symtab = t'.symtab ∧
      ∀ a o o', t.heap.get a = some o → t'.heap.get a = some o' → o = o' := by
  obtain ⟨f, u, hu, ht⟩ := h.unbounded (microlispStateCreate_built hcreate).remains henough
  obtain ⟨f', u', hu', ht'⟩ := h'.unbounded (microlispStateCreate_built hcreate').remains henough'
  rw [← hsame] at hu'
  obtain ⟨hlog, rfl⟩ := hu.unique hu' hreq
  refine ⟨hlog, ?_, ?_, ?_, ?_⟩
  · rw [show t.output = u.output by rw [ht.same], ht'.same]
  · rw [show t.lastError = u.lastError by rw [ht.same], ht'.same]
  · rw [show t.symtab = u.symtab by rw [ht.same], ht'.same]
  · intro a o o' ho ho'
    rw [← Option.some_inj, ← ht.sub a o ho, ht'.sub a o' ho']

end Runs

/-! ## Two states side by side -/

def plenty : Platform := ⟨fun _ _ => true, 16, fun _ len => len, fun _ => true⟩

/-- An arena for a thousand blocks, and a collection as soon as there is an object. -/
def scarce : Option Options := some ⟨some ⟨some fun n _ => decide (n < 1000), true, 64⟩, 0, 0, 0, 0, 1⟩

def listRequest : Request := ⟨some (ascii "(list 1 2)"), 10, true⟩

section Fresh
variable {opts : Option Options}

/-- What `microlisp_state_create` returns for these options. -/
def Config.fresh (opts : Option Options) : Config := (Config.zeroed plenty (Options.allocatorOr plenty opts) opts).built

def State.fresh (opts : Option Options) : State :=
  (buildState (Config.zeroed plenty (Options.allocatorOr plenty opts) opts) (.zeroed opts)).state

theorem microlispStateCreate_none : microlispStateCreate plenty none true = .ok (.fresh none, .fresh none) :=
  microlispStateCreate_eq rfl rfl rfl (by decide +kernel)

theorem microlispStateCreate_scarce : microlispStateCreate plenty scarce true = .ok (.fresh scarce, .fresh scarce) :=
  microlispStateCreate_eq rfl rfl rfl (by decide +kernel)

/-- The list is written back. -/
theorem transcript_list (h : (listRequest.run (.fresh opts) 9 (.fresh opts)).res = .ok (some (ascii "(1 2)"))) :
    Transcript (.fresh opts) (.fresh opts) [(listRequest, .ok (some (ascii "(1 2)")))]
      (listRequest.run (.fresh opts) 9 (.fresh opts)).trace (listRequest.run (.fresh opts) 9 (.fresh opts)).state :=
  .call .start 9 listRequest h

end Fresh

theorem transcript_reads_live_list :
    (listRequest.run (.fresh scarce) 9 (listRequest.run (.fresh scarce) 9 (.fresh scarce)).state).res ≠ .error .stuck :=
  (transcript_reads_live microlispStateCreate_scarce (transcript_list (by decide +kernel)) (by decide +kernel)).2
    9 listRequest
    (by decide +kernel)

theorem transcripts_agree_list :
    (listRequest.run (.fresh none) 9 (.fresh none)).state.output =
      (listRequest.run (.fresh scarce) 9 (.fresh scarce)).state.output :=
  (transcripts_agree microlispStateCreate_none microlispStateCreate_scarce rfl (transcript_list (by decide +kernel))
    (transcript_list (by decide +kernel)) rfl (.inl (by simp)) (.inl (by simp))).2.1

end Microlisp
