import Microlisp.Language.Heights
import Microlisp.Language.Programs
/-!
# The interpreter answers as the language says

The calls of a transcript, one after the other, answer what the language says about their sources, in
a world in which nothing but frames and output is kept from one to the next. So the answers do
not depend on anything else that the sources, or the states, differ in.
-/
namespace Microlisp

open Prog Microlisp.Language

namespace Language

/-- The requests in order, each with what the language answers. -/
inductive Answers (limit : Nat) (w : World) : List (Request × Outcome) → World → Prop
  | start : Answers limit w [] w
  | call {log : List (Request × Outcome)} {w' : World} (h : Answers limit w log w') (n : Nat)
      (q : Request) {o : Outcome}
      (ho : (respond limit n q w').Ends o) : Answers limit w (log ++ [(q, o)]) (respond limit n q w').state

/-- The language leaves open what one of the requests is answered. -/
def LeavesOpen (limit : Nat) (w : World) (log : List (Request × Outcome)) : Prop :=
  ∃ before q o after w' n, log = before ++ (q, o) :: after ∧ Answers limit w before w' ∧
    (respond limit n q w').res = .error .stuck

section Answers
variable {limit limit' n k : Nat} {w w' w'' : World} {log log' : List (Request × Outcome)}
    {q q' : Request} {o o' : Outcome}

theorem respond_below (h : n ≤ k) : Below (respond limit n q) (respond limit k q) := by
  unfold respond
  cases asked limit q with
  | none => exact .refl
  | some said => exact answer_below h

/-- Two heights that are enough. -/
theorem respond_same (hn : (respond limit n q w).res ≠ .error .timeout)
    (hk : (respond limit k q w).res ≠ .error .timeout) :
    respond limit n q w = respond limit k q w :=
  (((respond_below (Nat.le_max_left n k) w).resolve_left hn).symm).trans
    ((respond_below (Nat.le_max_right n k) w).resolve_left hk)

theorem ends_ne_timeout {α : Type} {r : Run World Status Empty α} {o : Except Status α} (h : r.Ends o) :
    r.res ≠ .error .timeout := by
  rw [h]
  cases o <;> nofun

theorem respond_unique (ho : (respond limit n q w).Ends o) (ho' : (respond limit k q w).Ends o') :
    o = o' ∧ (respond limit n q w).state = (respond limit k q w).state := by
  have hsame := respond_same (ends_ne_timeout ho) (ends_ne_timeout ho')
  rw [hsame] at ho ⊢
  exact ⟨ho.unique ho', rfl⟩

/-- What is open has no answer. -/
theorem respond_open (ho : (respond limit n q w).res = .error .stuck) (ho' : (respond limit k q w).Ends o') :
    False := by
  have hne : (respond limit n q w).res ≠ .error .timeout := by
    rw [ho]
    nofun
  rw [respond_same hne (ends_ne_timeout ho'), ho'] at ho
  cases o' <;> cases ho

theorem LeavesOpen.more {more : List (Request × Outcome)} (h : LeavesOpen limit w log) :
    LeavesOpen limit w (log ++ more) := by
  obtain ⟨before, q, o, after, w', n, rfl, hbefore, hopen⟩ := h
  exact ⟨before, q, o, after ++ more, w', n, by simp, hbefore, hopen⟩

/-- The same data are asked for, in the same style. -/
def Alike (limit limit' : Nat) (q q' : Request) : Prop := asked limit q = asked limit' q' ∧ q.wantBytes = q'.wantBytes

theorem Alike.respond (h : Alike limit limit' q q') : respond limit n q = respond limit' n q' := by
  unfold Language.respond
  rw [h.1, h.2]

/-- What the requests say determines the answers and the world. -/
theorem Answers.unique (h : Answers limit w log w') (h' : Answers limit' w log' w'')
    (halike : List.Forall₂ (fun x y => Alike limit limit' x.1 y.1) log log') :
    log.map Prod.snd = log'.map Prod.snd ∧ w' = w'' := by
  induction h generalizing log' w'' with
  | start =>
    cases h' with
    | start => exact ⟨rfl, rfl⟩
    | call => simp at halike
  | @call log w' h n q o ho ih =>
    cases h' with
    | start => simp at halike
    | @call log' w'' h' k q' o' ho' =>
      obtain ⟨hq, hlog⟩ : Alike limit limit' q q' ∧ List.Forall₂ (fun x y => Alike limit limit' x.1 y.1) log log' := by
        simpa using List.forall₂_reverse_iff.2 halike
      obtain ⟨houtcomes, rfl⟩ := ih h' hlog
      rw [← hq.respond] at ho' ⊢
      obtain ⟨rfl, hstate⟩ := respond_unique ho ho'
      exact ⟨by simp [houtcomes], hstate⟩

/-- What came before an answer. -/
theorem Answers.before {before after : List (Request × Outcome)} (h : Answers limit w log w')
    (hlog : log = before ++ (q, o) :: after) :
    ∃ w₁ n, Answers limit w before w₁ ∧ (respond limit n q w₁).Ends o := by
  induction h generalizing after with
  | start => simp at hlog
  | @call log w' h n q' o' ho ih =>
    rcases List.eq_nil_or_concat after with rfl | ⟨after, x, rfl⟩
    · obtain ⟨rfl, hlast⟩ := List.append_inj' hlog rfl
      cases hlast
      exact ⟨w', n, h, ho⟩
    · rw [List.concat_eq_append, ← List.cons_append, ← List.append_assoc] at hlog
      exact ih (List.append_inj' hlog rfl).1

/-- Where requests that ask for the same have answers, nothing is left open. -/
theorem LeavesOpen.elim (h : LeavesOpen limit' w log') (hanswers : Answers limit w log w')
    (halike : List.Forall₂ (fun x y => Alike limit limit' x.1 y.1) log log') : False := by
  obtain ⟨before', q', o', after', w₁, n, rfl, hbefore', hopen⟩ := h
  have hsplit := List.forall₂_take_append log before' _ halike
  obtain ⟨⟨q, o⟩, after, hq, -, hdrop⟩ := List.forall₂_cons_right_iff.1 (List.forall₂_drop_append log before' _ halike)
  have hlog : log = log.take before'.length ++ (q, o) :: after := by rw [← hdrop, List.take_append_drop]
  obtain ⟨w₂, k, hbefore, ho⟩ := hanswers.before hlog
  obtain ⟨-, rfl⟩ := hbefore.unique hbefore' hsplit
  rw [hq.respond] at ho
  exact respond_open hopen ho

end Answers

end Language

/-! ## Transcripts -/

/-- No call of the log met a limit of the interpreter: memory, the stream, or a depth. -/
def Unlimited (log : List (Request × Outcome)) : Prop := ∀ q e, (q, .error e) ∈ log → e.isLimit = false

section Transcripts
variable {c : Config} {fs : List Nat} {w : World} {s t : State} {log : List (Request × Outcome)} {events : List Event}

theorem Unlimited.enough (h : Unlimited log) : Enough c log := by
  apply Or.inl
  intro q hq
  cases h q _ hq

/-- Calls from a state that stands for a world answer what the language says there. -/
theorem Transcript.answers (hstd : c.Standard) (hc : ∀ n size, c.alloc n size = true) (hd : ∀ s, c.collectDue s = false)
    (hI : s.Speaks c fs w) (h : Transcript c s log events t) (hlog : Unlimited log) :
    (∃ fs' w', Answers c.maxReadDepth w log w' ∧ t.Speaks c fs' w') ∨ LeavesOpen c.maxReadDepth w log := by
  induction h with
  | start => exact .inl ⟨fs, w, .start, hI⟩
  | @call log events t h n q o ho ih =>
    rcases ih fun q e hq => hlog q e (List.mem_append_left _ hq) with ⟨fs', w', hanswers, hspeaks⟩ | hopen
    · have hfollows : Follows c (fun _ a b _ => a = b) (respond c.maxReadDepth (derivationHeight n) q)
          (q.run c n) fs' w' t :=
        run_follows hstd hc hd (Nat.le_refl _) q
      have hcompared : ∀ e, o = .error e → ¬ early (.err e) := by
        rintro e rfl hearly
        have he : e.isLimit = false := hlog q e (List.mem_append_right _ (List.mem_singleton_self _))
        rcases hearly with ⟨e', hx, he'⟩ | (hx | hx) | hx <;> cases hx
        · rw [he] at he'
          cases he'
        · cases he
      rcases hfollows.ends hspeaks ho hcompared with ⟨x, hx, rfl⟩ | ⟨o', fs'', ho', -, hspeaks', hsame⟩
      · exact .inr ⟨log, q, o, [], w', _, rfl, hanswers, hx⟩
      · have heq : o' = o := by
          rcases hsame with ⟨a, b, rfl, rfl, rfl⟩ | ⟨e, rfl, rfl⟩ <;> rfl
        subst heq
        exact .inl ⟨fs'', _, hanswers.call _ q ho', hspeaks'⟩
    · exact .inr hopen.more

end Transcripts

/-! ## A new state -/

theorem Config.Standard.unbounded {c : Config} (hc : c.Standard) : c.unbounded.Standard := by
  unfold Config.Standard at hc ⊢
  rw [hc]
  rfl

/-- The names, and the primitives by theirs. -/
theorem furnished_names : specialForms.map ascii <+: State.furnished.symtab.entries ∧
    List.Forall₂ (fun p i => (State.furnished.symtab.entries.findIdx? fun e => e == ascii p.1) = some
      (UInt32.ofNat (13 + i)).toNat ∧
      State.furnished.heap.get (2 + i) = some (.prim p.1 p.2.1 p.2.2.1 p.2.2.2)) kPrimitives (List.range 32) := by
  decide +kernel

theorem State.furnished_depicts : State.furnished.Depicts [1] .start where
  frames := by
    intro k a hk
    obtain ⟨rfl, rfl⟩ : k = 0 ∧ a = 1 := by
      cases k with
      | zero => exact ⟨rfl, by simpa using hk.symm⟩
      | succ k => simp at hk
    refine ⟨⟨mvNil, furnishedBindings, 32⟩, furnished_frame, ?_⟩
    have hvars : World.start.vars 0 = kPrimitives.map fun p => (ascii p.1, .prim p.1 p.2.1 p.2.2.1 p.2.2.2) := rfl
    rw [hvars, furnishedBindings, List.forall₂_map_left_iff, List.forall₂_map_right_iff]
    apply furnished_names.2.imp
    rintro p i ⟨hname, hprim⟩
    exact ⟨⟨_, rfl, hname⟩, 2 + i, rfl, hprim⟩
  count := rfl
  distinct := List.nodup_singleton 1
  names := furnished_names.1
  output := State.furnished_idle.output
  printDepth := State.furnished_idle.printDepth
  equalDepth := State.furnished_idle.equalDepth

theorem State.furnished_speaks {c : Config} (hc : c.Standard) : State.furnished.Speaks c [1] .start where
  depicts := State.furnished_depicts
  rests := by
    have hbare : State.created.Bare := rfl
    have hcreated : (Config.created.unbounded).Standard := rfl
    have hinstall : wp (readMode False) (mlPrimitivesInstall Config.created.unbounded (.obj 1)) State.created
        (fun _ u => u.Rests Config.created.unbounded ∧ True) fun _ u => u.Rests Config.created.unbounded :=
      wp_mono (mlPrimitivesInstall_rests hcreated (hbare.rests hcreated)) (fun _ _ h => ⟨h, trivial⟩) fun _ _ h => h
    have hrests : State.furnished.Rests Config.created.unbounded := ends_rests hinstall (o := .ok ()) State.furnished_ok
    have htop : c.toplevelEnv = Config.created.unbounded.toplevelEnv := hc.toplevelEnv
    exact ⟨⟨hrests.wf.clear, hrests.wf.objs, htop ▸ hrests.wf.toplevel, hrests.wf.protect, hrests.wf.pending⟩,
      hrests.pending, hrests.names⟩
  toplevel := ⟨1, ⟨mvNil, furnishedBindings, 32⟩, rfl, hc.toplevelEnv, furnished_frame, nofun, rfl⟩

/-! ## Every run of calls -/

section Runs
variable {p p' : Platform} {opts opts' : Option Options} {outState outState' : Bool} {c c' : Config} {s s' t t' : State}
  {log log' : List (Request × Outcome)} {events events' : List Event}

/-- The calls on a new state answer what the language says and leave what collections have left of a
state that depicts the world they lead to. -/
theorem Transcript.created_speaks (hcreate : microlispStateCreate p opts outState = .ok (c, s))
    (h : Transcript c s log events t) (hlog : Unlimited log) :
    (∃ w fs u, Answers c.maxReadDepth .start log w ∧ u.Speaks c.unbounded fs w ∧ Remains t u) ∨
      LeavesOpen c.maxReadDepth .start log := by
  have hbuilt := microlispStateCreate_built hcreate
  have hstart := State.furnished_speaks hbuilt.standard.unbounded
  obtain ⟨events', u, h', hu⟩ := h.unbounded hbuilt.remains hlog.enough
  rcases h'.answers hbuilt.standard.unbounded (fun _ _ => rfl) (fun _ => rfl) hstart hlog with
    ⟨fs, w, hanswers, hspeaks⟩ | hopen
  · exact .inl ⟨w, fs, u, hanswers, hspeaks, hu⟩
  · exact .inr hopen

/-- What the calls on a new state answer and write, if each of them returns and none meets a limit, is
what the language says, or the language leaves it open. -/
theorem transcript_answers (hcreate : microlispStateCreate p opts outState = .ok (c, s))
    (h : Transcript c s log events t)
    (hlog : Unlimited log) :
    (∃ w, Answers c.maxReadDepth .start log w ∧ t.output = w.output) ∨ LeavesOpen c.maxReadDepth .start log := by
  rcases h.created_speaks hcreate hlog with ⟨w, fs, u, hanswers, hspeaks, hu⟩ | hopen
  · exact .inl ⟨w, hanswers, hu.output.trans hspeaks.depicts.output⟩
  · exact .inr hopen

/-- Two runs of calls whose sources read as the same data have the same answers and the same output, whatever
else the sources, the allocators and the limits differ in, if every call returns and none meets a limit. -/
theorem transcripts_read_alike (hcreate : microlispStateCreate p opts outState = .ok (c, s))
    (hcreate' : microlispStateCreate p' opts' outState' = .ok (c', s')) (h : Transcript c s log events t)
    (h' : Transcript c' s' log' events' t') (hlog : Unlimited log) (hlog' : Unlimited log')
    (halike : List.Forall₂ (fun x y => Language.Alike c.maxReadDepth c'.maxReadDepth x.1 y.1) log log') :
    (log.map Prod.snd = log'.map Prod.snd ∧ t.output = t'.output) ∨ LeavesOpen c.maxReadDepth .start log := by
  rcases h.created_speaks hcreate hlog with ⟨w, fs, u, hanswers, hspeaks, hu⟩ | hopen
  · have hout : t.output = w.output := hu.output.trans hspeaks.depicts.output
    rcases h'.created_speaks hcreate' hlog' with ⟨w', fs', u', hanswers', hspeaks', hu'⟩ | hopen
    · have hout' : t'.output = w'.output := hu'.output.trans hspeaks'.depicts.output
      obtain ⟨houtcomes, rfl⟩ := hanswers.unique hanswers' halike
      exact .inl ⟨houtcomes, hout.trans hout'.symm⟩
    · exact (hopen.elim hanswers halike).elim
  · exact .inr hopen

end Runs

/-! ## One program, two texts -/

/-- `(write '(a b))` -/
def writeRequest : Request := ⟨some (ascii "(write '(a b))"), 14, true⟩

/-- The same program, in another layout. -/
def writeRequest' : Request := ⟨some (ascii "( write ; this\n  (quote (a . (b))))"), 35, true⟩

/-- The language and the two runs all end, and the two texts ask for the same. -/
theorem writeRequest_runs : (respond 256 3 writeRequest .start).res = .ok none ∧
    (writeRequest.run (.fresh none) 9 (.fresh none)).res = .ok none ∧
    (writeRequest'.run (.fresh scarce) 9 (.fresh scarce)).res = .ok none ∧
      asked 256 writeRequest = asked 256 writeRequest' := by
  decide +kernel

theorem writeRequest_answers :
    Answers 256 .start [(writeRequest, .ok none)] (respond 256 3 writeRequest .start).state :=
  .call .start 3 writeRequest writeRequest_runs.1

theorem writeRequest_run : (writeRequest.run (.fresh none) 9 (.fresh none)).Ends (.ok none) := writeRequest_runs.2.1

theorem writeRequest_run' : (writeRequest'.run (.fresh scarce) 9 (.fresh scarce)).Ends (.ok none) :=
  writeRequest_runs.2.2.1

theorem transcript_answers_write : (writeRequest.run (.fresh none) 9 (.fresh none)).state.output
    = (respond 256 3 writeRequest .start).state.output := by
  rcases transcript_answers microlispStateCreate_none (.call .start 9 writeRequest writeRequest_run)
    (by simp [Unlimited]) with
    ⟨w, hanswers, hout⟩ | hopen
  · rw [hout, (hanswers.unique writeRequest_answers (.cons ⟨rfl, rfl⟩ .nil)).2]
  · exact (hopen.elim writeRequest_answers (.cons ⟨rfl, rfl⟩ .nil)).elim

theorem transcripts_read_alike_write : (writeRequest.run (.fresh none) 9 (.fresh none)).state.output
    = (writeRequest'.run (.fresh scarce) 9 (.fresh scarce)).state.output := by
  have halike : Language.Alike 256 256 writeRequest writeRequest' := ⟨writeRequest_runs.2.2.2, rfl⟩
  rcases transcripts_read_alike microlispStateCreate_none microlispStateCreate_scarce
    (.call .start 9 writeRequest writeRequest_run)
      (.call .start 9 writeRequest' writeRequest_run') (by simp [Unlimited]) (by simp [Unlimited])
        (.cons halike .nil) with
    ⟨-, hout⟩ | hopen
  · exact hout
  · exact (hopen.elim writeRequest_answers (.cons ⟨rfl, rfl⟩ .nil)).elim

end Microlisp
