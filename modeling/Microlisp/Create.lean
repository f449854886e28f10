import Microlisp.Safety.Session
import Microlisp.Lockstep.Memory
/-!
# New states (`state.c`)

`microlisp_state_create` takes the first block of the allocator for the state itself, interns
the names of the special forms, and installs the primitives in a new top-level frame.
-/
namespace Microlisp

open Prog

/-- `microlisp_allocator`. -/
structure Allocator where
  /-- Which requests `alloc` grants, the `n`-th one of `size` bytes; nothing where it is `NULL`. -/
  alloc : Option (Nat → Nat → Bool)
  /-- Is `free` there? -/
  free : Bool
  /-- The address of the first block. -/
  block : Nat

/-- `microlisp_options`. -/
structure Options where
  allocator : Option Allocator
  maxReadDepth : Nat
  maxEvalDepth : Nat
  maxPrintDepth : Nat
  maxEqualDepth : Nat
  gcInitialThreshold : Nat

/-- What the library finds around it: `malloc` and `stdout`. -/
structure Platform where
  malloc : Nat → Nat → Bool
  mallocBlock : Nat
  fwrite : Nat → Nat → Nat
  fflush : Nat → Bool

/-- `default_alloc` and `default_free`. -/
def Platform.allocator (p : Platform) : Allocator := ⟨some p.malloc, true, p.mallocBlock⟩

def Allocator.grants (a : Allocator) (n size : Nat) : Bool := a.alloc.any fun grants => grants n size

def validateAllocator : Option Allocator → Except Status Unit
  | none => pure ()
  | some a => if a.alloc.isNone || !a.free then throw .errInvalidArg else pure ()

/-- `sizeof(microlisp_state)`. -/
def stateSize : Nat := 584

/-- An option, or its default where it is zero or there are no options. -/
def Options.limit (opts : Option Options) (field : Options → Nat) (byDefault : Nat) : Nat :=
  match opts with
  | some o => if field o ≠ 0 then field o else byDefault
  | none => byDefault

/-- The fields that are assigned before the first name is interned. The state has the first
block, so its own requests are counted from the second one. -/
def Config.zeroed (p : Platform) (a : Allocator) (opts : Option Options) : Config where
  alloc := fun n size => a.grants (n + 1) size
  fwrite := p.fwrite
  fflush := p.fflush
  collectDue := State.gcDue
  maxReadDepth := Options.limit opts Options.maxReadDepth 256
  maxEvalDepth := Options.limit opts Options.maxEvalDepth 1024
  maxPrintDepth := Options.limit opts Options.maxPrintDepth 1024
  maxEqualDepth := Options.limit opts Options.maxEqualDepth 1024
  symQuote := .obj 0
  symIf := .obj 0
  symDefine := .obj 0
  symLambda := .obj 0
  symSetBang := .obj 0
  symLet := .obj 0
  symLetStar := .obj 0
  symLetrec := .obj 0
  symBegin := .obj 0
  symAnd := .obj 0
  symOr := .obj 0
  symCond := .obj 0
  symElse := .obj 0
  toplevelEnv := .obj 0

def State.zeroed (opts : Option Options) : State where
  heap := Heap.empty
  gcLiveObjects := 0
  gcThreshold := Options.limit opts Options.gcInitialThreshold 4096
  gcStress := false
  gcProtect := []
  gcProtectCap := 0
  gcMarklist := []
  gcMarklistCap := 0
  symtab := ⟨[], 0⟩
  evalDepth := 0
  printDepth := 0
  equalDepth := 0
  lastError := ⟨[], 0, 0⟩
  output := []
  allocs := 0
  writes := 0
  flushes := 0
  pending := []
  gcKept := none

/-- A row of the table of `intern_special_forms`: a slot of the state, and the name for it. -/
abbrev Slot := (Config → Val → Config) × String

def specialFormSlots : List Slot :=
  [(fun c v => { c with symQuote := v }, "quote"), (fun c v => { c with symIf := v }, "if"),
   (fun c v => { c with symDefine := v }, "define"), (fun c v => { c with symLambda := v }, "lambda"),
   (fun c v => { c with symSetBang := v }, "set!"), (fun c v => { c with symLet := v }, "let"),
   (fun c v => { c with symLetStar := v }, "let*"), (fun c v => { c with symLetrec := v }, "letrec"),
   (fun c v => { c with symBegin := v }, "begin"), (fun c v => { c with symAnd := v }, "and"),
   (fun c v => { c with symOr := v }, "or"), (fun c v => { c with symCond := v }, "cond"),
   (fun c v => { c with symElse := v }, "else")]

/-- The loop of `intern_special_forms`. -/
def internLoop : List Slot → Config → ML Config
  | [], c => pure c
  | (slot, name) :: table, c => do
    let sym ← mlSymIntern c (ascii name)
    internLoop table (slot c sym)

def internSpecialForms (c : Config) : ML Config := internLoop specialFormSlots c

/-- What `microlisp_state_create` does to the zeroed state. -/
def buildState (c : Config) : ML Config := do
  let c ← internSpecialForms c
  let env ← mlGcAllocEnv c mvNil
  let c := { c with toplevelEnv := env }
  mlPrimitivesInstall c c.toplevelEnv
  pure c

/-- The allocator of the options, or the platform's. -/
def Options.allocatorOr (p : Platform) (opts : Option Options) : Allocator :=
  (opts.bind Options.allocator).getD p.allocator

/-- `microlisp_state_create`; `outState` says whether `out_state` is not `NULL`. -/
def microlispStateCreate (p : Platform) (opts : Option Options) (outState : Bool) :
    Except (Halt Status) (Config × State) :=
  if !outState then
    .error (.err .errInvalidArg)
  else
    match validateAllocator (opts.bind Options.allocator) with
    | .error st => .error (.err st)
    | .ok () =>
      let a := Options.allocatorOr p opts
      if !a.grants 0 stateSize then
        .error (.err .errNomem)
      else if a.block % 8 ≠ 0 then
        .error (.err .errInvalidArg)
      else
        let r := buildState (Config.zeroed p a opts) (State.zeroed opts)
        r.res.map fun c => (c, r.state)

/-! ## The names of the special forms -/

section Forms
variable {c : Config} {s : State} {name : Bytes}

/-- What is left to intern fits the table that the first name brings, and is new to it. -/
structure State.Takes (s : State) (names : List Bytes) : Prop where
  nodup : (s.symtab.entries ++ names).Nodup
  room : s.symtab.entries.length + names.length ≤ 32
  capacity : s.symtab.capacity = if s.symtab.entries.length = 0 then 0 else 32

/-- The state with a name more. -/
def State.named (s : State) (name : Bytes) (allocs : Nat) : State :=
  { s with symtab := ⟨s.symtab.entries ++ [name], 32⟩, allocs := allocs }

/-- There is a request that the allocator would refuse. -/
def Config.Refuses (c : Config) : Prop := ∃ n size, c.alloc n size = false

theorem rawAllocOrFail_refused {size : Nat} (hsize : size ≠ 0) :
    wp Mode.fully (rawAllocOrFail c size) s (fun _ t => t = { s with allocs := t.allocs })
      fun e _ => e = .errNomem ∧ c.Refuses := by
  apply wp_mono rawAllocOrFail_wp (fun _ _ h => h)
  rintro e t ⟨he, hrefused, -⟩
  exact ⟨he, (hrefused.resolve_left hsize).imp fun _ hn => ⟨_, hn⟩⟩

/-- A new name gets the next index. -/
theorem mlSymIntern_new {names : List Bytes} (hs : s.Takes (name :: names)) : wp Mode.fully (mlSymIntern c name) s
    (fun v t => v = mlMakeSym s.symtab.entries.length ∧ t = s.named name t.allocs ∧ t.Takes names)
    fun e _ => e = .errNomem ∧ c.Refuses := by
  have hnew : s.symtab.entries.findIdx? (fun e => e == name) = none := by
    rw [List.findIdx?_eq_none_iff]
    intro e he
    have hne : e ≠ name := (List.nodup_append.1 hs.nodup).2.2 e he name (List.mem_cons_self ..)
    simpa using hne
  have hlen := hs.room
  rw [List.length_cons] at hlen
  have htakes : ∀ k, (s.named name k).Takes names := fun k => {
    nodup := by simpa [State.named] using hs.nodup
    room := by
      simp only [State.named, List.length_append, List.length_singleton]
      omega
    capacity := by simp [State.named] }
  -- the table has room for the name from here on
  have hadd : ∀ t : State, t = { s with symtab := ⟨s.symtab.entries, 32⟩, allocs := t.allocs } →
      wp Mode.fully (if s.symtab.entries.length > 0x0FFFFFFF then fail .errNomem else do
        rawAllocOrFail c (name.length + 1)
        modify fun s => { s with symtab := ⟨s.symtab.entries ++ [name], s.symtab.capacity⟩ }
        pure (mlMakeSym s.symtab.entries.length) : ML Val) t
        (fun v u => v = mlMakeSym s.symtab.entries.length ∧ u = s.named name u.allocs ∧ u.Takes names)
        fun e _ => e = .errNomem ∧ c.Refuses := by
    intro t ht
    apply wp_ite
    · intro hceiling
      omega
    · intro _
      apply wp_seq (rawAllocOrFail_refused (Nat.succ_ne_zero _))
      rintro _ u hu
      apply wp_bind
      apply wp_modify
      apply wp_pure
      have hheld : { u with symtab := ⟨u.symtab.entries ++ [name], u.symtab.capacity⟩ } = s.named name u.allocs := by
        rw [hu, ht]
        rfl
      rw [hheld]
      exact ⟨rfl, rfl, htakes _⟩
  unfold mlSymIntern
  apply wp_bind
  apply wp_gets
  rw [hnew]
  apply wp_bind
  apply wp_gets
  apply wp_ite
  · intro hfull
    have hempty : s.symtab.entries.length = 0 := by
      have hcap := hs.capacity
      by_contra hne
      rw [if_neg hne] at hcap
      omega
    have hzero : s.symtab.capacity = 0 := by rw [← hfull, hempty]
    rw [if_pos hzero]
    apply wp_seq (rawAllocOrFail_refused (by decide))
    rintro _ t ht
    apply wp_bind
    apply wp_modify
    apply hadd
    rw [ht]
  · intro hroom
    apply hadd
    have hcap : s.symtab.capacity = 32 := by
      rw [hs.capacity, if_neg]
      intro hempty
      rw [hs.capacity, if_pos hempty] at hroom
      exact hroom hempty
    rw [← hcap]

/-- The slots of the table, filled in its order. -/
def fillSlots : List Slot → Nat → Config → Config
  | [], _, c => c
  | (slot, _) :: table, k, c => fillSlots table (k + 1) (slot c (mlMakeSym k))

theorem internLoop_wp (table : List Slot) (hslots : ∀ row ∈ table, ∀ d v, (row.1 d v).alloc = d.alloc)
    (hs : s.Takes (table.map fun row => ascii row.2)) :
    wp Mode.fully (internLoop table c) s
      (fun d t => d = fillSlots table s.symtab.entries.length c ∧
        t = { s with
          symtab := ⟨s.symtab.entries ++ table.map fun row => ascii row.2, t.symtab.capacity⟩
          allocs := t.allocs } ∧
        t.Takes [])
      fun e _ => e = .errNomem ∧ c.Refuses := by
  induction table generalizing c s with
  | nil => exact wp_pure ⟨rfl, by simp, hs⟩
  | cons row table ih =>
    obtain ⟨slot, name⟩ := row
    apply wp_seq (mlSymIntern_new hs)
    rintro v t ⟨rfl, ht, htakes⟩
    have hsame : (slot c (mlMakeSym s.symtab.entries.length)).Refuses → c.Refuses := by
      unfold Config.Refuses
      rw [hslots _ (List.mem_cons_self ..)]
      exact id
    apply wp_mono (ih (fun row hrow => hslots row (List.mem_cons_of_mem _ hrow)) htakes) _ fun _ _ h => ⟨h.1, hsame h.2⟩
    rintro d u ⟨rfl, hu, hdone⟩
    have hlen : t.symtab.entries.length = s.symtab.entries.length + 1 := by
      rw [ht]
      simp [State.named]
    refine ⟨by rw [hlen]; rfl, ?_, hdone⟩
    rw [hu, ht]
    simp [State.named]

end Forms

/-! ## The top-level frame -/

section Install
variable {bl br : Halt Status → Prop} {c c' : Config} {P : Nat → Nat → Prop} {R : State → State → Prop}
    {s t : State} {env : Val}

theorem mlPrimitivesInstall_lockstep (h : LockstepCall bl br c c' P R) :
    Sim bl br R (mlPrimitivesInstall c env) (mlPrimitivesInstall c' env) := by
  have hloop : ∀ l, Sim bl br R (installLoop c env l) (installLoop c' env l) := by
    intro l
    induction l with
    | nil => exact .pure ()
    | cons p l ih =>
      apply (h.gcAlloc _ _).bind
      intro prim
      apply savepoint_lockstep h.toLockstep
      intro sp sp' hsp
      apply (h.protect _).bind
      intro _
      apply (onErr_restore_lockstep h.toLockstep hsp (mlSymIntern_lockstep h.toLockstepRead)).bind
      intro sym
      exact (andThen_restore_lockstep h.toLockstep hsp (mlEnvDefine_lockstep h.toLockstep)).bind fun _ => ih
  exact hloop _

/-- With all the memory it asks for, the install does not depend on the rest of the configuration. -/
theorem mlPrimitivesInstall_unbounded :
    mlPrimitivesInstall c.unbounded env = mlPrimitivesInstall Config.created.unbounded env := by
  have hloop : ∀ l, installLoop c.unbounded env l = installLoop Config.created.unbounded env l := by
    intro l
    induction l with
    | nil => rfl
    | cons p l ih =>
      unfold installLoop
      rw [ih]
      rfl
  exact hloop _

theorem mlPrimitivesInstall_remains : Sim (shortage c) (fun _ => False) Remains (mlPrimitivesInstall c env)
    (mlPrimitivesInstall Config.created.unbounded env) := by
  rw [← mlPrimitivesInstall_unbounded (c := c)]
  exact mlPrimitivesInstall_lockstep lockstep_memory

/-- The state after the install, where memory is unbounded. -/
def State.furnished : State := (mlPrimitivesInstall Config.created.unbounded (.obj 1) .created).state

theorem State.furnished_ok : (mlPrimitivesInstall Config.created.unbounded (.obj 1) .created).res = .ok () := by
  decide +kernel

/-- The state in which the install starts: the top-level frame is its only object, and empty. -/
def State.Bare (s : State) : Prop := s = { State.created with gcThreshold := s.gcThreshold, allocs := s.allocs }

theorem State.Bare.fresh (hs : s.Bare) : s.Fresh := by
  unfold State.Fresh
  rw [hs]

theorem State.Bare.rests (hc : c.Standard) (hs : s.Bare) : s.Rests c := by
  have hheap : s.heap = Heap.empty.alloc (.env mvNil [] 0) := by rw [hs]; rfl
  have hget : ∀ a o, s.heap.get a = some o → a = 1 ∧ o = .env mvNil [] 0 := by
    intro a o ho
    rw [hheap, Heap.get_alloc] at ho
    split at ho
    · rename_i ha
      cases ho
      exact ⟨ha, rfl⟩
    · cases ho
  refine ⟨⟨?_, ?_, ?_, ?_, ?_⟩, ?_, ?_⟩
  · rw [hheap]
    exact fun k hk => by rw [List.mem_singleton.1 hk]
  · intro a o ho
    obtain ⟨-, rfl⟩ := hget a o ho
    exact ⟨.inl rfl, nofun⟩
  · rw [hc.toplevelEnv, hheap]
    exact ⟨⟨mvNil, [], 0⟩, 1, rfl, rfl⟩
  · rw [hs]
    exact nofun
  · rw [hs]
    exact nofun
  · rw [hs]
    rfl
  · have hsymtab : s.symtab = ⟨specialForms.map ascii, 32⟩ := by rw [hs]; rfl
    refine ⟨⟨?_, ?_, ?_⟩, ?_⟩ <;> rewrite [hsymtab]
    · decide
    · decide
    · decide
    · exact List.prefix_refl _

theorem State.Bare.remains (hs : s.Bare) : Remains s State.created := by
  have hheap : s.heap = State.created.heap := by rw [hs]
  refine ⟨?_, by rw [hheap], by rw [hheap]; exact fun _ _ h => h, ?_⟩
  · rw [hheap]
    exact fun k hk => by rw [List.mem_singleton.1 hk]
  · rw [hs]

/-- `u` is what the install makes of a bare state with this threshold. -/
def State.Installed (c : Config) (threshold : Nat) (u : State) : Prop :=
  ∃ b : State, b.Bare ∧ b.gcThreshold = threshold ∧ (mlPrimitivesInstall c c.toplevelEnv b).Ends (.ok ()) ∧
    (mlPrimitivesInstall c c.toplevelEnv b).state = u

theorem State.Installed.session {threshold : Nat} (hc : c.Standard) (hs : s.Installed c threshold) : Session s := by
  obtain ⟨b, hb, -, hends, rfl⟩ := hs
  exact .create hc hb.fresh hends

/-- The primitives are installed, unless the allocator would refuse some request. -/
theorem mlPrimitivesInstall_wp (hc : c.Standard) (hs : s.Bare) : wp Mode.fully (mlPrimitivesInstall c c.toplevelEnv) s
    (fun _ u => u.Installed c s.gcThreshold ∧ u.Rests c ∧ Remains u State.furnished) fun e _ => e = .errNomem ∧
      c.Refuses := by
  have hsafe := (mlPrimitivesInstall_rests hc (hs.rests hc) fun _ _ => id).2
  have hsim : SimAt (shortage c) (fun _ => False) Remains (mlPrimitivesInstall c c.toplevelEnv)
      (mlPrimitivesInstall Config.created.unbounded (.obj 1)) s .created := by
    rw [hc.toplevelEnv]
    exact mlPrimitivesInstall_remains s .created hs.remains
  unfold SimAt Run.Sim at hsim
  rw [State.furnished_ok] at hsim
  intro _
  refine ⟨fun _ _ => trivial, ?_⟩
  cases hr : (mlPrimitivesInstall c c.toplevelEnv s).res with
  | ok a =>
    rw [hr] at hsim hsafe
    exact ⟨⟨s, hs, rfl, hr, rfl⟩, hsafe, hsim.2⟩
  | error x =>
    rw [hr] at hsim hsafe
    rcases hsim with rfl | ⟨rfl, hrefused⟩
    · exact absurd trivial hsafe
    · exact ⟨rfl, hrefused⟩

/-- The top-level frame binds the primitives, in the order of their table, and nothing else. -/
def State.Furnished (c : Config) (s : State) : Prop :=
  ∃ bindings capacity, s.heap.Has c.toplevelEnv (.env mvNil bindings capacity) ∧
    List.Forall₂ (fun b p => s.symtab.name b.1 = ascii p.1 ∧ s.heap.Has b.2 (.prim p.1 p.2.1 p.2.2.1 p.2.2.2))
      bindings kPrimitives

def furnishedBindings : List (Val × Val) := (List.range 32).map fun i => (mlMakeSym (13 + i), .obj (2 + i))

/-- What the run of the install has bound. -/
theorem furnished_scope : State.furnished.heap.get 1 = some (.env mvNil furnishedBindings 32) ∧
    List.Forall₂ (fun i p => State.furnished.symtab.name (mlMakeSym (13 + i)) = ascii p.1 ∧
      State.furnished.heap.get (2 + i) = some (.prim p.1 p.2.1 p.2.2.1 p.2.2.2)) (List.range 32) kPrimitives := by
  decide +kernel

theorem furnished_frame : State.furnished.heap.get 1 = some (.env mvNil furnishedBindings 32) := furnished_scope.1

/-- The install has bound what it binds where memory is unbounded, and nothing of it is gone. -/
theorem State.Rests.furnished (hc : c.Standard) (hs : s.Rests c) (h : Remains s State.furnished) : s.Furnished c := by
  have hsymtab : State.furnished.symtab = s.symtab := by rw [h.same]
  have hframe : s.heap.get 1 = some (.env mvNil furnishedBindings 32) := by
    obtain ⟨f, a, ha, hf⟩ := hs.wf.toplevel
    rw [hc.toplevelEnv] at ha
    cases ha
    rw [← furnished_frame, h.sub 1 _ hf, hf]
  have hlive : ∀ i ∈ List.range 32, ∃ o, s.heap.get (2 + i) = some o := by
    intro i hi
    obtain ⟨-, hbindings⟩ := hs.wf.objs 1 _ hframe
    obtain ⟨-, o, ho, -⟩ := hbindings _ (List.mem_map_of_mem hi)
    exact ⟨o, ho⟩
  refine ⟨furnishedBindings, 32, ⟨1, hc.toplevelEnv, hframe⟩, ?_⟩
  rw [furnishedBindings, List.forall₂_map_left_iff]
  apply List.Forall₂.imp _ ((List.forall₂_and_left _ _).2 ⟨hlive, furnished_scope.2⟩)
  rintro i p ⟨⟨o, ho⟩, hname, hprim⟩
  refine ⟨hsymtab ▸ hname, 2 + i, rfl, ?_⟩
  rw [← hprim, h.sub _ _ ho, ho]

end Install

/-! ## The new state -/

section Build
variable {c d : Config} {s : State} {p : Platform} {opts : Option Options} {outState : Bool}

/-- The configuration that `c` becomes: its symbols and its top-level frame are the usual ones. -/
def Config.built (c : Config) : Config :=
  { Config.created with
    alloc := c.alloc
    fwrite := c.fwrite
    fflush := c.fflush
    collectDue := c.collectDue
    maxReadDepth := c.maxReadDepth
    maxEvalDepth := c.maxEvalDepth
    maxPrintDepth := c.maxPrintDepth
    maxEqualDepth := c.maxEqualDepth }

/-- No call has been made yet. -/
structure State.Idle (s : State) : Prop where
  gcProtect : s.gcProtect = []
  evalDepth : s.evalDepth = 0
  printDepth : s.printDepth = 0
  equalDepth : s.equalDepth = 0
  lastError : s.lastError = ⟨[], 0, 0⟩
  output : s.output = []

theorem State.furnished_idle : State.furnished.Idle := by
  have hall : State.furnished.gcProtect = [] ∧ State.furnished.evalDepth = 0 ∧ State.furnished.printDepth = 0 ∧
      State.furnished.equalDepth = 0 ∧ State.furnished.lastError = ⟨[], 0, 0⟩ ∧ State.furnished.output = [] := by
    decide +kernel
  obtain ⟨hprotect, heval, hprint, hequal, herror, houtput⟩ := hall
  exact ⟨hprotect, heval, hprint, hequal, herror, houtput⟩

theorem Remains.idle (h : Remains s State.furnished) : s.Idle := by
  have hidle := State.furnished_idle
  rw [h.same] at hidle
  exact ⟨hidle.gcProtect, hidle.evalDepth, hidle.printDepth, hidle.equalDepth, hidle.lastError, hidle.output⟩

theorem internSpecialForms_wp : wp Mode.fully (internSpecialForms c) (.zeroed opts)
    (fun d t => d = fillSlots specialFormSlots 0 c ∧
      t = { State.zeroed opts with symtab := ⟨specialForms.map ascii, 32⟩, allocs := t.allocs })
    fun e _ => e = .errNomem ∧ c.Refuses := by
  have hslots : ∀ row ∈ specialFormSlots, ∀ d v, (row.1 d v).alloc = d.alloc := by
    simp [specialFormSlots]
  have htakes : (State.zeroed opts).Takes (specialFormSlots.map fun row => ascii row.2) := by
    refine ⟨?_, ?_, rfl⟩
    · show (specialForms.map ascii).Nodup
      decide
    · show 0 + 13 ≤ 32
      decide
  apply wp_mono (internLoop_wp specialFormSlots hslots htakes) _ fun _ _ h => h
  rintro d t ⟨hd, ht, hdone⟩
  refine ⟨hd, ?_⟩
  have hcap := hdone.capacity
  rw [ht] at hcap ⊢
  rw [show t.symtab.capacity = 32 from hcap]
  rfl

/-- No collection is due while there are no objects. -/
theorem zeroed_calm (hc : c.collectDue = State.gcDue) (hs : s.gcLiveObjects = 0) (hstress : s.gcStress = false)
    (hthreshold : s.gcThreshold ≠ 0) : c.collectDue s = false := by
  rw [hc]
  simp [State.gcDue, hs, hstress, hthreshold]

theorem limit_ne_zero {field : Options → Nat} {byDefault : Nat} (h : byDefault ≠ 0) :
    Options.limit opts field byDefault ≠ 0 := by
  unfold Options.limit
  split
  · split
    · assumption
    · exact h
  · exact h

/-- What `microlisp_state_create` makes of `c`: the configuration `d`, with the usual symbols, and the
state `u`, which has the primitives and in which nothing dangles and no call is under way. -/
structure Built (c : Config) (threshold : Nat) (d : Config) (u : State) : Prop where
  config : d = c.built
  installed : u.Installed d threshold
  rests : u.Rests d
  furnished : u.Furnished d
  idle : u.Idle
  remains : Remains u .furnished

theorem Built.standard {threshold : Nat} (h : Built c threshold d s) : d.Standard := by
  rw [h.config]
  rfl

theorem buildState_wp (opts : Option Options) (hc : c.collectDue = State.gcDue) :
    wp Mode.fully (buildState c) (.zeroed opts)
    (fun d u => Built c (State.zeroed opts).gcThreshold d u) fun e _ => e = .errNomem ∧ c.Refuses := by
  apply wp_seq internSpecialForms_wp
  rintro d t ⟨rfl, ht⟩
  have hcalm : (fillSlots specialFormSlots 0 c).collectDue t = false := by
    apply zeroed_calm hc <;> rw [ht]
    · rfl
    · rfl
    · exact limit_ne_zero (by decide)
  have henv : wp Mode.fully (mlGcAllocEnv (fillSlots specialFormSlots 0 c) mvNil) t (fun v u => v = .obj 1 ∧
      u.Bare ∧ u.gcThreshold = (State.zeroed opts).gcThreshold)
      fun e _ => e = .errNomem ∧ c.Refuses := by
    apply wp_bind
    apply wp_bind
    apply wp_gets
    rw [hcalm]
    apply wp_pure
    apply wp_seq (rawAllocOrFail_refused (by decide))
    rintro _ u hu
    apply wp_mono (linkObject_wp trivial) _ fun _ _ h => h
    rintro v w ⟨rfl, rfl⟩
    rw [hu, ht]
    exact ⟨rfl, rfl, rfl⟩
  apply wp_seq henv
  rintro env u ⟨rfl, hu, hthreshold⟩
  have hstandard : Config.Standard { fillSlots specialFormSlots 0 c with toplevelEnv := .obj 1 } := rfl
  apply wp_seq (mlPrimitivesInstall_wp hstandard hu)
  rintro _ w ⟨hinstalled, hrests, hremains⟩
  exact wp_pure ⟨rfl, hthreshold ▸ hinstalled, hrests, hrests.furnished hstandard hremains, hremains.idle, hremains⟩

/-- No place for the state, half a table of functions, or a first block that is not aligned. -/
def Rejected (p : Platform) (opts : Option Options) (outState : Bool) : Prop :=
  outState = false ∨
  (∃ a, opts.bind Options.allocator = some a ∧ (a.alloc = none ∨ a.free = false)) ∨
  ((Options.allocatorOr p opts).grants 0 stateSize = true ∧ (Options.allocatorOr p opts).block % 8 ≠ 0)

theorem validateAllocator_eq (a : Option Allocator) :
    validateAllocator a = .error .errInvalidArg ∧ (∃ b, a = some b ∧ (b.alloc = none ∨ b.free = false)) ∨
    validateAllocator a = .ok () ∧ ¬ ∃ b, a = some b ∧ (b.alloc = none ∨ b.free = false) := by
  cases a with
  | none => exact .inr ⟨rfl, by simp⟩
  | some b =>
    obtain ⟨_ | grants, _ | _, block⟩ := b
    · exact .inl ⟨rfl, _, rfl, .inl rfl⟩
    · exact .inl ⟨rfl, _, rfl, .inl rfl⟩
    · exact .inl ⟨rfl, _, rfl, .inr rfl⟩
    · exact .inr ⟨rfl, by simp⟩

/-- Arguments that are wrong are rejected. Otherwise memory may run out, though only with an allocator
that would refuse some request, or there is a new state: its configuration is what the options ask
for, its top-level frame binds the primitives, nothing in it dangles, and no call is under way. -/
theorem microlispStateCreate_cases (p : Platform) (opts : Option Options) (outState : Bool) :
    microlispStateCreate p opts outState = .error (.err .errInvalidArg) ∧ Rejected p opts outState ∨
    ¬ Rejected p opts outState ∧
      (microlispStateCreate p opts outState = .error (.err .errNomem) ∧
        (∃ n size, (Options.allocatorOr p opts).grants n size = false) ∨
      ∃ c s, microlispStateCreate p opts outState = .ok (c, s) ∧
        Built (Config.zeroed p (Options.allocatorOr p opts) opts) (State.zeroed opts).gcThreshold c s) := by
  cases outState with
  | false => exact .inl ⟨rfl, .inl rfl⟩
  | true =>
    rcases validateAllocator_eq (opts.bind Options.allocator) with ⟨hval, hpartial⟩ | ⟨hval, hwhole⟩
    · refine .inl ⟨?_, .inr (.inl hpartial)⟩
      simp only [microlispStateCreate, hval]
      rfl
    have hrejected : Rejected p opts true ↔
        ((Options.allocatorOr p opts).grants 0 stateSize = true ∧ (Options.allocatorOr p opts).block % 8 ≠ 0) := by
      simp [Rejected, hwhole]
    rw [hrejected]
    simp only [microlispStateCreate, hval]
    cases hgrant : (Options.allocatorOr p opts).grants 0 stateSize with
    | false => exact .inr ⟨by simp, .inl ⟨rfl, 0, stateSize, hgrant⟩⟩
    | true =>
      by_cases hblock : (Options.allocatorOr p opts).block % 8 ≠ 0
      · exact .inl ⟨by simp [hblock], rfl, hblock⟩
      · refine .inr ⟨fun h => hblock h.2, ?_⟩
        obtain ⟨r, hends, hok, herr⟩ := ends_of_wp_fully
          (buildState_wp (c := Config.zeroed p (Options.allocatorOr p opts) opts) opts rfl)
        unfold Run.Ends at hends
        cases r with
        | ok c =>
          refine .inr ⟨c, _, ?_, hok c rfl⟩
          simp [hblock, hends, Except.map, mapError_ok]
        | error e =>
          obtain ⟨rfl, n, size, hrefused⟩ := herr e rfl
          refine .inl ⟨?_, n + 1, size, hrefused⟩
          simp [hblock, hends, Except.map, mapError_error]

/-- Where the arguments are right and the build ends well. -/
theorem microlispStateCreate_eq (hval : validateAllocator (opts.bind Options.allocator) = .ok ())
    (hgrant : (Options.allocatorOr p opts).grants 0 stateSize = true)
    (hblock : (Options.allocatorOr p opts).block % 8 = 0)
    (hbuild : (buildState (Config.zeroed p (Options.allocatorOr p opts) opts) (.zeroed opts)).res.isOk = true) :
    microlispStateCreate p opts true = .ok ((Config.zeroed p (Options.allocatorOr p opts) opts).built,
      (buildState (Config.zeroed p (Options.allocatorOr p opts) opts) (.zeroed opts)).state) := by
  obtain ⟨r, hends, hok, -⟩ := ends_of_wp_fully
    (buildState_wp (c := Config.zeroed p (Options.allocatorOr p opts) opts) opts rfl)
  unfold Run.Ends at hends
  rw [hends] at hbuild
  cases r with
  | error e => cases hbuild
  | ok d =>
    rw [← (hok d rfl).config]
    simp [microlispStateCreate, hval, hgrant, hblock, hends, Except.map, mapError_ok]

theorem microlispStateCreate_built (h : microlispStateCreate p opts outState = .ok (c, s)) :
    Built (Config.zeroed p (Options.allocatorOr p opts) opts) (State.zeroed opts).gcThreshold c s := by
  obtain ⟨r, hends, hok, -⟩ := ends_of_wp_fully
    (buildState_wp (c := Config.zeroed p (Options.allocatorOr p opts) opts) opts rfl)
  unfold Run.Ends at hends
  unfold microlispStateCreate at h
  -- the guards, and then the run
  split at h
  · cases h
  split at h
  · cases h
  dsimp only at h
  split at h
  · cases h
  split at h
  · cases h
  rw [hends] at h
  cases r with
  | ok d =>
    cases h
    exact hok c rfl
  | error e => cases h

end Build
end Microlisp
