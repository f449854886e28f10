import Microlisp.Balance.Inside
import Microlisp.Lib.Roster
import Microlisp.Lockstep.Reader
/-!
# Symbols keep their names

The symbol table numbers the names that have been interned. It only grows, whatever is
called and whatever fails, so a symbol has one name as long as the state lives.
-/
namespace Microlisp

open Prog

/-! ## The table -/

/-- What the table is like between any two calls. -/
structure Symtab.Sound (t : Symtab) : Prop where
  nodup : t.entries.Nodup
  ceiling : t.entries.length ≤ 0x0FFFFFFF + 1
  room : t.entries.length ≤ t.capacity

/-- The names with their numbers. -/
def Symtab.Sound.roster {t : Symtab} (h : t.Sound) : Roster Bytes := ⟨t.entries, h.nodup⟩

/-- The table of `t` is sound, and has grown from these entries. -/
def State.Numbers (old : List Bytes) (t : State) : Prop := t.symtab.Sound ∧ old <+: t.symtab.entries

section Table
variable {t : Symtab} {k : Nat} {name : Bytes} {v : Val}

/-- No index is cut short. -/
theorem Symtab.Sound.index (h : t.Sound) (hk : k < t.entries.length) : (UInt32.ofNat k).toNat = k := by
  rw [UInt32.toNat_ofNat']
  have := h.ceiling
  omega

theorem Symtab.name_makeSym (h : t.Sound) (hk : t.entries[k]? = some name) : t.name (mlMakeSym k) = name := by
  unfold Symtab.name mlMakeSym
  dsimp only
  rw [h.index (List.getElem?_eq_some_iff.1 hk).1, hk]
  rfl

theorem mlMakeSym_inj {t' : Symtab} {l : Nat} {name' : Bytes} (h : t.Sound) (h' : t'.Sound)
    (hk : t.entries[k]? = some name)
    (hl : t'.entries[l]? = some name') : mlMakeSym k = mlMakeSym l ↔ k = l := by
  refine ⟨fun heq => ?_, fun heq => by rw [heq]⟩
  have htoNat := congrArg UInt32.toNat (Val.sym.inj heq)
  rwa [h.index (List.getElem?_eq_some_iff.1 hk).1, h'.index (List.getElem?_eq_some_iff.1 hl).1] at htoNat

end Table

section Intern
variable {c : Config} {s : State} {name : Bytes}

/-- A name that is new takes the next number. -/
theorem Symtab.Sound.add {t : Symtab} (h : t.Sound) (hname : t.entries.findIdx? (fun e => e == name) = none)
    (hceiling : ¬ t.entries.length > 0x0FFFFFFF) (hroom : t.entries.length < t.capacity) :
    (⟨t.entries ++ [name], t.capacity⟩ : Symtab).Sound where
  nodup := (h.roster.add name hname).nodup
  ceiling := by
    rw [List.length_append, List.length_singleton]
    omega
  room := by
    rw [List.length_append, List.length_singleton]
    exact hroom

/-- An intern finds its name or adds it. When it fails, the entries are as they were, also where
they have been moved to a larger array. -/
theorem mlSymIntern_wp (c : Config) (name : Bytes) (hs : s.symtab.Sound) :
    wp Mode.fully (mlSymIntern c name) s
      (fun v t => t.Numbers s.symtab.entries ∧ ∃ k, v = mlMakeSym k ∧ t.symtab.entries[k]? = some name)
      (fun e t => e = .errNomem ∧ t.symtab.Sound ∧ t.symtab.entries = s.symtab.entries) := by
  unfold mlSymIntern
  apply wp_bind
  apply wp_gets
  cases hfind : s.symtab.entries.findIdx? (fun e => e == name) with
  | some i => exact wp_pure ⟨⟨hs, List.prefix_refl _⟩, i, rfl, hs.roster.number?_eq_some.1 hfind⟩
  | none =>
    -- the last part, with room for one more entry
    have hadd : ∀ t : State, t.symtab.Sound → t.symtab.entries = s.symtab.entries →
        t.symtab.entries.length < t.symtab.capacity →
        wp Mode.fully (if s.symtab.entries.length > 0x0FFFFFFF then fail .errNomem else do
          rawAllocOrFail c (name.length + 1)
          modify fun s => { s with symtab := ⟨s.symtab.entries ++ [name], s.symtab.capacity⟩ }
          pure (mlMakeSym s.symtab.entries.length) : ML Val) t
          (fun v t => t.Numbers s.symtab.entries ∧ ∃ k, v = mlMakeSym k ∧ t.symtab.entries[k]? = some name)
          (fun e t => e = .errNomem ∧ t.symtab.Sound ∧ t.symtab.entries = s.symtab.entries) := by
      intro t ht hentries hroom
      apply wp_ite
      · exact fun _ => wp_fail ⟨rfl, ht, hentries⟩
      intro hceiling
      rw [← hentries] at hfind hceiling ⊢
      apply wp_bind
      apply wp_mono rawAllocOrFail_wp
      · intro _ u hu
        have htable : u.symtab = t.symtab := by rw [hu]
        apply wp_bind
        apply wp_modify
        apply wp_pure
        rw [htable]
        exact ⟨⟨ht.add hfind hceiling hroom, List.prefix_append _ _⟩, _, rfl, List.getElem?_concat_length⟩
      · rintro e u ⟨he, -, hu⟩
        have htable : u.symtab = t.symtab := by rw [hu]
        rw [htable]
        exact ⟨he, ht, rfl⟩
    apply wp_bind
    apply wp_gets
    apply wp_ite
    · intro hfull
      apply wp_bind
      apply wp_mono rawAllocOrFail_wp
      · intro _ t ht
        have htable : t.symtab = s.symtab := by rw [ht]
        have hcap : s.symtab.capacity < if s.symtab.capacity = 0 then 32 else s.symtab.capacity * 2 := by
          split <;> omega
        apply wp_bind
        apply wp_modify
        refine hadd _ ⟨?_, ?_, ?_⟩ ?_ ?_ <;> dsimp only <;> rw [htable]
        · exact hs.nodup
        · exact hs.ceiling
        · exact Nat.le_of_lt (hfull ▸ hcap)
        · exact hfull ▸ hcap
      · rintro e t ⟨he, -, ht⟩
        have htable : t.symtab = s.symtab := by rw [ht]
        rw [htable]
        exact ⟨he, hs, rfl⟩
    · exact fun hfull => hadd s hs rfl (Nat.lt_of_le_of_ne hs.room hfull)

end Intern
/-! ## Whole calls -/

/-- Runs that return no status are not compared. -/
def halted : Halt Status → Prop := fun x => ∀ e, x ≠ .err e

/-- The same state, in which `State.Numbers` holds. -/
def NumbersAlike (old : List Bytes) (s t : State) : Prop := s = t ∧ s.Numbers old

section Calls
variable {old : List Bytes} {c : Config} {α : Type} {m : ML α} {s : State}

/-- A call that is known to leave the table sound and growing. -/
theorem alike_of_wp (h : ∀ s, s.Numbers old → wp Mode.partly m s (fun _ t => t.Numbers old)
    (fun _ t => t.Numbers old)) :
    Sim halted halted (NumbersAlike old) m m := by
  rintro s _ ⟨rfl, hs⟩
  have hm := (h s hs fun _ _ => id).2
  unfold SimAt Run.Sim
  cases hr : (m s).res with
  | ok a =>
    rw [hr] at hm
    exact ⟨rfl, rfl, hm⟩
  | error x =>
    cases x with
    | err e =>
      rw [hr] at hm
      exact .inr (.inr ⟨rfl, rfl, hm⟩)
    | stuck => exact .inl nofun
    | timeout => exact .inl nofun

/-- A call that leaves the table alone. -/
theorem alike_of_same {Q : State → α → State → Prop} {E : State → Status → State → Prop}
    (h : ∀ s, wp Mode.partly m s (Q s) (E s))
    (hQ : ∀ s a t, Q s a t → t.symtab = s.symtab) (hE : ∀ s e t, E s e t → t.symtab = s.symtab) :
    Sim halted halted (NumbersAlike old) m m := by
  have hkeep : ∀ {s t : State}, s.Numbers old → t.symtab = s.symtab → t.Numbers old := by
    intro s t hs ht
    unfold State.Numbers
    rw [ht]
    exact hs
  apply alike_of_wp
  intro s hs
  exact wp_mono (h s) (fun a t ht => hkeep hs (hQ s a t ht)) fun e t ht => hkeep hs (hE s e t ht)

theorem rawAllocOrFail_alike (size : Nat) :
    Sim halted halted (NumbersAlike old) (rawAllocOrFail c size) (rawAllocOrFail c size) :=
  alike_of_same (fun _ => rawAllocOrFail_wp) (fun _ _ _ ht => by rw [ht]) fun _ _ _ ht => by rw [ht.2.2]

theorem gcAlloc_alike (size : Nat) (o : Obj) :
    Sim halted halted (NumbersAlike old) (gcAlloc c size o) (gcAlloc c size o) := by
  have hcollect : Sim halted halted (NumbersAlike old) (mlGcCollect c) (mlGcCollect c) :=
    alike_of_same (E := fun _ _ _ => False)
      (fun s => mlGcCollect_shrunk (s := s) (G := fun _ => True) watches_partly fun _ _ _ => trivial)
      (fun _ _ _ ht => by rw [ht.same]) fun _ _ _ => False.elim
  have hmaybe : Sim halted halted (NumbersAlike old) (maybeCollect c) (maybeCollect c) := by
    apply Sim.gets_bind
    rintro s _ ⟨rfl, hs⟩
    exact Sim.ite (fun _ => hcollect) (fun _ => .pure _) s s ⟨rfl, hs⟩
  apply hmaybe.bind
  intro _
  apply (rawAllocOrFail_alike _).bind
  intro _
  exact alike_of_same (E := fun _ _ _ => False) (fun _ => linkObject_wp trivial) (fun _ _ _ ht => by rw [ht.2])
    fun _ _ _ => False.elim

theorem mlSymIntern_alike (name : Bytes) :
    Sim halted halted (NumbersAlike old) (mlSymIntern c name) (mlSymIntern c name) := by
  apply alike_of_wp
  intro s hs
  refine wp_mono (wp_weaken (mlSymIntern_wp c name hs.1) (fun _ h => h) (fun _ h => h) (fun _ => trivial)
    fun _ => trivial) ?_ ?_
  · exact fun _ t ht => ⟨ht.1.1, hs.2.trans ht.1.2⟩
  · exact fun _ t ht => ⟨ht.2.1, ht.2.2 ▸ hs.2⟩

/-- A run beside itself. -/
theorem lockstep_alike : LockstepEval halted halted c c (· = ·) (NumbersAlike old) where
  fwrite := rfl
  fflush := rfl
  maxPrintDepth := .inl rfl
  maxEqualDepth := .inl rfl
  maxEvalDepth := .inl rfl
  symQuote := rfl
  symIf := rfl
  symDefine := rfl
  symLambda := rfl
  symSetBang := rfl
  symLet := rfl
  symLetStar := rfl
  symLetrec := rfl
  symBegin := rfl
  symAnd := rfl
  symOr := rfl
  symCond := rfl
  symElse := rfl
  readObj := fun _ => alike_of_same (E := fun _ _ _ => False) (fun _ => readObj_wp False.elim)
    (fun _ _ _ ht => by rw [ht.1])
    fun _ _ _ => False.elim
  writeObj := fun _ _ => alike_of_same (E := fun _ _ _ => False) (fun _ => writeObj_wp False.elim fun _ _ => trivial)
    (fun _ _ _ ⟨_, _, ht⟩ => by rw [ht]) fun _ _ _ => False.elim
  gcAlloc := gcAlloc_alike
  rawAlloc := rawAllocOrFail_alike
  protect := fun _ =>
    alike_of_same (fun _ => mlGcProtect_wp) (fun _ _ _ ht => by rw [ht]) fun _ _ _ ht => by rw [ht.2.2]
  getSlot := by
    rintro n _ rfl
    apply Sim.bind (Sim.gets fun s t h => by rw [h.1])
    intro v
    cases v with
    | some v => exact .pure v
    | none => exact .stuck
  nextSlot := by
    rintro n _ rfl
    rfl
  height := by
    rintro s _ ⟨rfl, -⟩
    rfl
  restore := by
    rintro n _ s _ rfl ⟨rfl, h⟩
    exact ⟨rfl, h⟩
  unprotect := by
    rintro n s _ ⟨rfl, h⟩
    exact ⟨rfl, h⟩
  setSlot := by
    rintro n _ v s _ rfl ⟨rfl, h⟩
    exact ⟨rfl, h⟩
  setError := by
    rintro l k message s _ ⟨rfl, h⟩
    exact ⟨rfl, h⟩
  next := by
    rintro s _ ⟨rfl, -⟩
    rfl
  symtab := by
    rintro s _ ⟨rfl, -⟩
    rfl
  evalDepth := by
    rintro s _ ⟨rfl, -⟩
    rfl
  setEvalDepth := by
    rintro n s _ ⟨rfl, h⟩
    exact ⟨rfl, h⟩
  printDepth := by
    rintro s _ ⟨rfl, -⟩
    rfl
  setPrintDepth := by
    rintro n s _ ⟨rfl, h⟩
    exact ⟨rfl, h⟩
  equalDepth := by
    rintro s _ ⟨rfl, -⟩
    rfl
  setEqualDepth := by
    rintro n s _ ⟨rfl, h⟩
    exact ⟨rfl, h⟩
  writes := by
    rintro s _ ⟨rfl, -⟩
    rfl
  write := by
    rintro bytes s _ ⟨rfl, h⟩
    exact ⟨rfl, h⟩
  flushes := by
    rintro s _ ⟨rfl, -⟩
    rfl
  flush := by
    rintro s _ ⟨rfl, h⟩
    exact ⟨rfl, h⟩
  push := by
    rintro v s _ ⟨rfl, h⟩
    exact ⟨rfl, h⟩
  pop := by
    rintro s _ ⟨rfl, h⟩
    exact ⟨rfl, h⟩

theorem lockstep_names : LockstepNames halted halted c c (· = ·) (NumbersAlike old) :=
  { lockstep_alike with
    maxReadDepth := .inl rfl
    intern := mlSymIntern_alike }

theorem microlispEval_numbers (n : Nat) (source : Option Bytes) (sourceLen : Nat) (wantBytes : Bool) :
    Sim halted halted (NumbersAlike old) (microlispEval c n source sourceLen wantBytes)
      (microlispEval c n source sourceLen wantBytes) := by
  apply microlispEval_alike lockstep_alike lockstep_names rfl
  rintro s _ ⟨rfl, h⟩
  exact ⟨rfl, h⟩

theorem mlPrimitivesInstall_numbers (env : Val) :
    Sim halted halted (NumbersAlike old) (mlPrimitivesInstall c env) (mlPrimitivesInstall c env) := by
  have h : LockstepEval halted halted c c (· = ·) (NumbersAlike old) := lockstep_alike
  have hloop : ∀ l, Sim halted halted (NumbersAlike old) (installLoop c env l) (installLoop c env l) := by
    intro l
    induction l with
    | nil => exact .pure _
    | cons p l ih =>
      apply (gcAlloc_alike _ _).bind
      intro prim
      apply savepoint_lockstep h.toLockstep
      rintro sp _ rfl
      apply (h.protect _).bind
      intro _
      apply (onErr_restore_lockstep h.toLockstep rfl (mlSymIntern_alike _)).bind
      intro sym
      exact (andThen_restore_lockstep h.toLockstep rfl (mlEnvDefine_lockstep h.toLockstep)).bind fun _ => ih
  exact hloop _

/-- What a call that ends leaves behind. -/
theorem numbers_of_ends {o : Except Status α} (h : Sim halted halted (NumbersAlike old) m m) (hs : s.Numbers old)
    (ho : (m s).Ends o) :
    (m s).state.Numbers old := by
  have hm := h s s ⟨rfl, hs⟩
  unfold SimAt Run.Sim at hm
  unfold Run.Ends at ho
  rw [ho] at hm
  cases o with
  | ok a => exact hm.2.2
  | error e => exact (hm.resolve_left fun hx => hx e rfl).resolve_left (fun hx => hx e rfl) |>.2.2

end Calls

/-! ## The life of a state -/

/-- From `s` the state has become `t`: symbols have been interned, primitives installed and
sources evaluated, with any allocator, any limits and any outcome. What else has been done left
the table alone. -/
inductive State.Leads (s : State) : State → Prop
  | refl : Leads s s
  | intern {t : State} (h : Leads s t) (c : Config) (name : Bytes) : Leads s (mlSymIntern c name t).state
  | install {t : State} (h : Leads s t) (c : Config) (env : Val) {o : Except Status Unit}
      (ho : (mlPrimitivesInstall c env t).Ends o) :
      Leads s (mlPrimitivesInstall c env t).state
  | eval {t : State} (h : Leads s t) (c : Config) (n : Nat) (source : Option Bytes) (sourceLen : Nat) (wantBytes : Bool)
      {o : Except Status (Option Bytes)} (ho : (microlispEval c n source sourceLen wantBytes t).Ends o) :
      Leads s (microlispEval c n source sourceLen wantBytes t).state
  | other {t u : State} (h : Leads s t) (hu : u.symtab = t.symtab) : Leads s u

/-- However the state has come about, its table is sound and has grown. -/
theorem State.Leads.numbers {s t : State} (h : s.Leads t) (hs : s.symtab.Sound) : t.Numbers s.symtab.entries := by
  induction h with
  | refl => exact ⟨hs, List.prefix_refl _⟩
  | intern _ c name ih =>
    obtain ⟨o, ho, -, -⟩ := ends_of_wp_fully (mlSymIntern_wp c name ih.1)
    exact numbers_of_ends (mlSymIntern_alike name) ih ho
  | install _ c env ho ih => exact numbers_of_ends (mlPrimitivesInstall_numbers env) ih ho
  | eval _ c n source sourceLen wantBytes ho ih =>
    exact numbers_of_ends (microlispEval_numbers n source sourceLen wantBytes) ih ho
  | other _ hu ih =>
    unfold State.Numbers
    rw [hu]
    exact ih

theorem Symtab.sound_nil : (⟨[], 0⟩ : Symtab).Sound := ⟨List.nodup_nil, Nat.zero_le _, Nat.le_refl _⟩

/-- Between a symbol and a later one: they are the same when their names are. -/
theorem mlMakeSym_iff {s t : State} (hs : s.symtab.Sound) (ht : t.Numbers s.symtab.entries) {k l : Nat}
    {name name' : Bytes}
    (hk : s.symtab.entries[k]? = some name) (hl : t.symtab.entries[l]? = some name') :
    mlMakeSym k = mlMakeSym l ↔ name = name' := by
  have hgrown : hs.roster.Extends ht.1.roster := ht.2
  exact (mlMakeSym_inj hs ht.1 hk hl).trans (hgrown.number_iff hk hl)

/-- In a state that started without symbols, an interned name has its own symbol, whose index is
not cut short. As long as the state lives, the symbol has this name, and every other intern that
succeeds returns it for this name alone. An intern that fails leaves all names as they are. -/
theorem mlSymIntern_stable {s₀ s : State} (hnew : s₀.symtab = ⟨[], 0⟩) (hs : s₀.Leads s) (c : Config) (name : Bytes) :
    (∀ v, (mlSymIntern c name s).res = .ok v →
      (∃ k, v = mlMakeSym k ∧ (UInt32.ofNat k).toNat = k ∧
        (mlSymIntern c name s).state.symtab.entries[k]? = some name) ∧
      ∀ t, (mlSymIntern c name s).state.Leads t → (mlSymName v t).res = .ok name ∧
        ∀ c' name' v', (mlSymIntern c' name' t).res = .ok v' → (v = v' ↔ name = name')) ∧
    ∀ x, (mlSymIntern c name s).res = .error x →
      x = .err .errNomem ∧ (mlSymIntern c name s).state.symtab.entries = s.symtab.entries := by
  have hsound : s.symtab.Sound := (hs.numbers (hnew ▸ Symtab.sound_nil)).1
  obtain ⟨o, ho, hok, herr⟩ := ends_of_wp_fully (mlSymIntern_wp c name hsound)
  unfold Run.Ends at ho
  rw [ho]
  cases o with
  | error e =>
    obtain ⟨rfl, -, hentries⟩ := herr e rfl
    refine ⟨nofun, ?_⟩
    rintro _ ⟨⟩
    exact ⟨rfl, hentries⟩
  | ok v =>
    obtain ⟨⟨hafter, -⟩, k, rfl, hk⟩ := hok v rfl
    refine ⟨?_, nofun⟩
    rintro _ ⟨⟩
    refine ⟨⟨k, rfl, hafter.index (List.getElem?_eq_some_iff.1 hk).1, hk⟩, fun t ht => ?_⟩
    have hgrown := ht.numbers hafter
    have hextends : hafter.roster.Extends hgrown.1.roster := hgrown.2
    have hname : t.symtab.entries[k]? = some name := hextends.name? hk
    refine ⟨congrArg Except.ok (Symtab.name_makeSym hgrown.1 hname), fun c' name' v' hv' => ?_⟩
    obtain ⟨o', ho', hok', -⟩ := ends_of_wp_fully (mlSymIntern_wp c' name' hgrown.1)
    unfold Run.Ends at ho'
    rw [hv'] at ho'
    cases o' with
    | error e => cases ho'
    | ok w =>
      cases ho'
      obtain ⟨hlater, l, rfl, hl⟩ := hok' _ rfl
      exact mlMakeSym_iff hgrown.1 hlater hname hl

/-- A new state without symbols. -/
def State.unnamed : State := { State.created with symtab := ⟨[], 0⟩ }

/-- Small requests are refused. -/
def Config.stingy : Config := { Config.created with alloc := fun _ size => decide (512 ≤ size) }

/-- An intern has failed after the table had grown for it, and another one has succeeded. -/
def State.retried : State := (mlSymIntern .created (ascii "a") (mlSymIntern .stingy [0] .unnamed).state).state

/-- A name that is one NUL byte, and then one that is two. -/
theorem mlSymIntern_stable_nul :
    (mlSymIntern .stingy [0] .unnamed).res = .error (.err .errNomem) ∧
    (mlSymIntern .stingy [0] .unnamed).state.symtab = ⟨[], 32⟩ ∧
    (mlSymIntern .created [0] .retried).res = .ok (.sym 1) ∧
    (mlSymName (.sym 1) (mlSymIntern .created [0, 0] (mlSymIntern .created [0] .retried).state).state).res = .ok [0] ∧
    ∀ v, (mlSymIntern .created [0, 0] (mlSymIntern .created [0] .retried).state).res = .ok v → v ≠ .sym 1 := by
  have hretried : State.unnamed.Leads .retried := .intern (.intern .refl .stingy [0]) .created (ascii "a")
  have hstable := (mlSymIntern_stable rfl hretried .created [0]).1 (.sym 1) rfl
  refine ⟨rfl, rfl, rfl, (hstable.2 _ (.intern .refl .created [0, 0])).1, fun v hv heq => ?_⟩
  have hname := ((hstable.2 _ .refl).2 .created [0, 0] v hv).1 heq.symm
  exact absurd hname (by decide)

end Microlisp
