import Microlisp.PrintDepth
import Microlisp.Lib.Related
/-!
# The print buffer

`print_buf_sink` and `ml_print_to_alloc` over the block they write to. A `size_t`
computation that wraps, and an access beyond the end of a block, get stuck here, so runs
that do not get stuck are free of both. These runs are then compared with those over
`PrintBuf`, which has the bytes alone, and with what the walker emits.
-/
namespace Microlisp

open Prog

/-! ## Blocks -/

/-- A block from the allocator, byte by byte. A byte not yet written has no value. -/
abbrev Block := List (Option UInt8)

/-- A `size_t` computation with this exact result. -/
def sizeOp (x : Int) : ML Nat := if 0 ≤ x ∧ x ≤ sizeMax then pure x.toNat else stuck

/-- `memcpy(dst + at, src, n)`. -/
def memcpy (dst : Block) (offset : Nat) (src : Block) (n : Nat) : ML Block :=
  if n ≤ src.length ∧ offset + n ≤ dst.length then
    pure (dst.take offset ++ src.take n ++ dst.drop (offset + n))
  else
    stuck

/-- `ml_raw_alloc`, with the block. -/
def allocBlock (c : Config) (size : Nat) : ML (Option Block) := do
  if ← mlRawAlloc c size then pure (some (List.replicate size none)) else pure none

/-! ## The sink -/

/-- `print_buf`; a `NULL` pointer is `none`. -/
structure BlockBuf where
  bytes : Option Block
  len : Nat
  cap : Nat

/-- `while (new_cap < need)`. -/
def growLoop (need : Nat) : Nat → Nat → ML Nat
  | 0, _ => timeout
  | n + 1, newCap =>
    if newCap < need then
      -- `__builtin_mul_overflow`
      if newCap * 2 ≤ sizeMax then growLoop need n (newCap * 2) else fail .errNomem
    else
      pure newCap

/-- The branch that moves the bytes to a larger block. -/
def growBlock (c : Config) (pb : BlockBuf) (need : Nat) : ML BlockBuf := do
  let newCap ← growLoop need 65 (if pb.cap = 0 then 64 else pb.cap)
  match ← allocBlock c newCap with
  | none => fail .errNomem
  | some grown =>
    match pb.bytes with
    | none => pure ⟨some grown, pb.len, newCap⟩
    | some old =>
      let grown ← memcpy grown 0 old pb.len
      pure ⟨some grown, pb.len, newCap⟩

/-- The copy at the end of `print_buf_sink`, and the new length. -/
def appendBlock (pb : BlockBuf) (bytes : Bytes) : ML BlockBuf := do
  match pb.bytes with
  | none => stuck
  | some block =>
    let block ← memcpy block pb.len (bytes.map some) bytes.length
    let len ← sizeOp (pb.len + bytes.length)
    pure ⟨some block, len, pb.cap⟩

/-- `print_buf_sink`. -/
def blockSink (c : Config) : Sink BlockBuf := fun pb bytes => do
  let rest ← sizeOp (sizeMax - pb.len)
  let room ← sizeOp (rest - 1)
  if bytes.length > room then
    fail .errNomem
  else
    let sum ← sizeOp (pb.len + bytes.length)
    let need ← sizeOp (sum + 1)
    let pb ← if need > pb.cap then growBlock c pb need else pure pb
    appendBlock pb bytes

/-! ## Printing into the block -/

/-- The room for the terminating NUL of a result that nothing was printed to. -/
def ensureBlock (c : Config) (pb : BlockBuf) : ML BlockBuf := do
  if pb.cap = 0 then
    match ← allocBlock c 1 with
    | none => fail .errNomem
    | some block => pure ⟨some block, pb.len, 1⟩
  else
    pure pb

/-- `pb.bytes[pb.len] = '\0'`. -/
def terminate (pb : BlockBuf) : ML BlockBuf := do
  match pb.bytes with
  | none => stuck
  | some block =>
    let block ← memcpy block pb.len [some 0] 1
    pure ⟨some block, pb.len, pb.cap⟩

/-- `ml_print_to_alloc`, up to its writes to the caller's variables. -/
def printToBlock (c : Config) (v : Val) (writeStyle : Bool) : ML BlockBuf := do
  let pb ← mlPrint (blockSink c) c v writeStyle ⟨none, 0, 0⟩
  let pb ← ensureBlock c pb
  terminate pb

/-- The caller's variables behind `out_bytes` and `out_len`. -/
structure PrintOut where
  bytes : Option Block
  len : Nat

/-- A step on the interpreter's state, which the caller's variables are no part of. -/
def onState {α : Type} (m : ML α) : Prog (State × PrintOut) Status Event α := fun s =>
  ⟨(m s.1).res, ((m s.1).state, s.2), (m s.1).trace⟩

/-- `ml_print_to_alloc`. `wantLen` says whether `out_len` is not `NULL`. -/
def printToAlloc (c : Config) (v : Val) (writeStyle wantLen : Bool) : Prog (State × PrintOut) Status Event Unit := do
  let pb ← onState (printToBlock c v writeStyle)
  modify fun s => (s.1, { s.2 with bytes := pb.bytes })
  if wantLen then modify fun s => (s.1, { s.2 with len := pb.len }) else pure ()

/-! ## What the buffer holds -/

/-- The bytes, and behind them room for one more where there is a block at all. -/
structure BlockBuf.Holds (b : BlockBuf) (bytes : Bytes) : Prop where
  len : b.len = bytes.length
  cap : b.cap ≤ sizeMax
  null : b.cap = 0 → b.bytes = none ∧ bytes = []
  block : b.cap ≠ 0 → ∃ room, b.bytes = some (bytes.map some ++ room) ∧ room ≠ [] ∧ bytes.length + room.length = b.cap

/-- The same buffer in the two models. -/
structure BlockBuf.Backs (b : BlockBuf) (pb : PrintBuf) : Prop where
  holds : b.Holds pb.bytes
  cap : b.cap = pb.cap

section Buffers
variable {c : Config} {b : BlockBuf} {pb : PrintBuf} {bytes chunk : Bytes} {need : Nat}

theorem BlockBuf.Holds.len_lt (h : b.Holds bytes) (hcap : b.cap ≠ 0) : b.len < b.cap := by
  obtain ⟨room, -, hroom, hlen⟩ := h.block hcap
  have hpos := List.length_pos_iff.2 hroom
  have := h.len
  omega

theorem BlockBuf.Holds.len_le (h : b.Holds bytes) : b.len ≤ sizeMax - 1 := by
  have hmax := h.cap
  by_cases hcap : b.cap = 0
  · rw [h.len, (h.null hcap).2]
    exact Nat.zero_le _
  · have := h.len_lt hcap
    omega

theorem BlockBuf.Holds.nil : (⟨none, 0, 0⟩ : BlockBuf).Holds [] :=
  ⟨rfl, Nat.zero_le _, fun _ => ⟨rfl, rfl⟩, fun h => absurd rfl h⟩

/-! ## Its operations -/

theorem sizeOp_of {x : Int} {n : Nat} (hx : x = n) (hn : n ≤ sizeMax) : sizeOp x = pure n := by
  subst hx
  exact if_pos ⟨by omega, by omega⟩

theorem memcpy_of {dst src : Block} {offset n : Nat} (hsrc : n ≤ src.length) (hdst : offset + n ≤ dst.length) :
    memcpy dst offset src n = pure (dst.take offset ++ src.take n ++ dst.drop (offset + n)) := if_pos ⟨hsrc, hdst⟩

/-- Bytes copied behind others. -/
theorem memcpy_append {xs room src : Block} {offset n : Nat} (hxs : offset = xs.length) (hsrc : n = src.length)
    (hroom : n ≤ room.length) :
    memcpy (xs ++ room) offset src n = pure (xs ++ src ++ room.drop n) := by
  subst hxs hsrc
  rw [memcpy_of (Nat.le_refl _) (by rw [List.length_append]; omega), List.take_length, List.take_left, List.drop_append,
    List.drop_of_length_le (by omega), Nat.add_sub_cancel_left]
  rfl

/-- The doubling loop ends: with enough room, or because a size has no double. -/
theorem growLoop_cases (need n newCap : Nat) (hcap : newCap ≤ sizeMax) (hn : 2 ^ 64 < newCap * 2 ^ n) :
    growCap need n newCap = none ∧ growLoop need n newCap = fail .errNomem ∨
    ∃ grown, growCap need n newCap = some grown ∧ growLoop need n newCap = pure grown ∧ need ≤ grown ∧ newCap ≤ grown ∧
      grown ≤ sizeMax := by
  induction n generalizing newCap with
  | zero =>
    simp only [sizeMax] at hcap
    omega
  | succ n ih =>
    simp only [growCap, growLoop]
    by_cases hneed : newCap < need
    · simp only [if_pos hneed]
      by_cases hmax : newCap * 2 ≤ sizeMax
      · have hlt : newCap * 2 < 2 ^ 64 := by
          simp only [sizeMax] at hmax
          omega
        simp only [if_pos hmax, if_pos hlt]
        have hn : 2 ^ 64 < newCap * 2 * 2 ^ n := by
          rwa [Nat.mul_assoc, Nat.mul_comm 2, ← Nat.pow_succ]
        rcases ih (newCap * 2) hmax hn with h | ⟨grown, h, h', hneed, hle, hmax⟩
        · exact .inl h
        · exact .inr ⟨grown, h, h', hneed, by omega, hmax⟩
      · have hlt : ¬ newCap * 2 < 2 ^ 64 := by
          simp only [sizeMax] at hmax
          omega
        simp only [if_neg hmax, if_neg hlt]
        exact .inl ⟨trivial, trivial⟩
    · simp only [if_neg hneed]
      exact .inr ⟨newCap, rfl, rfl, by omega, Nat.le_refl _, hcap⟩

/-- A new block, or none. -/
theorem allocBlock_bind {α : Type} {size : Nat} {f : Option Block → ML α} {g : ML α} (hnone : f none = fail .errNomem)
    (hsome : f (some (List.replicate size none)) = g) :
    (allocBlock c size >>= f) = (rawAllocOrFail c size >>= fun _ => g) := by
  simp only [allocBlock, rawAllocOrFail, bind_assoc]
  congr 1
  funext granted
  cases granted
  · exact hnone
  · exact hsome

/-- Growing asks for one block, and moves the bytes there. -/
theorem growBlock_cases (need : Nat) (h : b.Holds bytes) :
    growCap need 65 (if b.cap = 0 then 64 else b.cap) = none ∧ growBlock c b need = fail .errNomem ∨
    ∃ grown room, growCap need 65 (if b.cap = 0 then 64 else b.cap) = some grown ∧
      growBlock c b need = (do
        rawAllocOrFail c grown
        pure ⟨some (bytes.map some ++ room), b.len, grown⟩) ∧
      bytes.length + room.length = grown ∧ need ≤ grown ∧ grown ≤ sizeMax := by
  have hstart : (if b.cap = 0 then 64 else b.cap) ≤ sizeMax ∧ 1 ≤ (if b.cap = 0 then 64 else b.cap) := by
    have := h.cap
    by_cases hcap : b.cap = 0
    · simp only [if_pos hcap, sizeMax]
      omega
    · simp only [if_neg hcap]
      omega
  have hbound : 2 ^ 64 < (if b.cap = 0 then 64 else b.cap) * 2 ^ 65 :=
    calc 2 ^ 64 < 1 * 2 ^ 65 := by decide
      _ ≤ _ := Nat.mul_le_mul_right _ hstart.2
  rcases growLoop_cases need 65 _ hstart.1 hbound with ⟨hnone, hloop⟩ | ⟨grown, hsome, hloop, hneed, hle, hmax⟩
  · left
    refine ⟨hnone, ?_⟩
    rw [growBlock, hloop]
    rfl
  · right
    have hle : bytes.length ≤ grown := by
      by_cases hcap : b.cap = 0
      · rw [(h.null hcap).2]
        exact Nat.zero_le _
      · have := h.len_lt hcap
        rw [if_neg hcap] at hle
        rw [← h.len]
        omega
    refine ⟨grown, List.replicate (grown - bytes.length) none, hsome, ?_, ?_, hneed, hmax⟩
    · rw [growBlock, hloop, pure_bind]
      apply allocBlock_bind rfl
      by_cases hcap : b.cap = 0
      · obtain ⟨hnull, rfl⟩ := h.null hcap
        simp only [hnull]
        rfl
      · obtain ⟨room, hblock, -, -⟩ := h.block hcap
        simp only [hblock, h.len]
        rw [memcpy_of (by simp) (by simpa using hle), pure_bind]
        simp
    · rw [List.length_replicate]
      omega

/-- The copy fits in front of the last byte. -/
theorem appendBlock_of (chunk : Bytes) (room : Block) {len cap : Nat} (hlen : len = bytes.length)
    (hroom : chunk.length < room.length)
    (hcap : bytes.length + room.length = cap) (hmax : cap ≤ sizeMax) :
    ∃ b', appendBlock ⟨some (bytes.map some ++ room), len, cap⟩ chunk = pure b' ∧ b'.Holds (bytes ++ chunk) ∧
      b'.cap = cap := by
  subst hlen
  refine ⟨⟨some ((bytes ++ chunk).map some ++ room.drop chunk.length), (bytes ++ chunk).length, cap⟩, ?_, ?_, rfl⟩
  · simp only [appendBlock]
    rw [memcpy_append (by rw [List.length_map]) (by rw [List.length_map]) (by omega), pure_bind,
      sizeOp_of (n := (bytes ++ chunk).length) (by simp) (by rw [List.length_append]; omega),
      pure_bind, ← List.map_append]
  · refine ⟨rfl, hmax, fun h => ?_, fun _ => ⟨_, rfl, ?_, ?_⟩⟩
    · simp only at h
      omega
    · rw [← List.length_pos_iff, List.length_drop]
      omega
    · simp only [List.length_append, List.length_drop]
      omega

/-! ## The two models of the sink -/

/-- How runs over the two models are compared. -/
abbrev BacksAt (m : ML BlockBuf) (m' : ML PrintBuf) (s t : State) : Prop :=
  RelatedAt (fun _ => False) (fun b pb s t => b.Backs pb ∧ s = t) (· = ·) m m' s t

/-- The sink runs alike over the block and over its bytes. -/
theorem blockSink_backs (h : b.Backs pb) (s : State) : BacksAt (blockSink c b chunk) (printBufSink c pb chunk) s s := by
  obtain ⟨hholds, hcap⟩ := h
  have hlen := hholds.len
  have hle := hholds.len_le
  have hmax := hholds.cap
  have hsize : sizeMax = 2 ^ 64 - 1 := rfl
  simp only [blockSink, printBufSink]
  rw [sizeOp_of (n := sizeMax - pb.bytes.length) (by omega) (by omega), pure_bind,
    sizeOp_of (n := sizeMax - pb.bytes.length - 1) (by omega) (by omega), pure_bind]
  apply RelatedAt.ite
  · exact fun _ => relatedAt_fail rfl
  · intro hfits
    rw [sizeOp_of (n := pb.bytes.length + chunk.length) (by omega) (by omega), pure_bind,
      sizeOp_of (n := pb.bytes.length + chunk.length + 1) (by omega) (by omega), pure_bind, hcap]
    by_cases hneed : pb.bytes.length + chunk.length + 1 > pb.cap
    · simp only [if_pos hneed]
      rcases growBlock_cases (c := c) (pb.bytes.length + chunk.length + 1) hholds with
        ⟨hgrow, hblock⟩ | ⟨grown, room, hgrow, hblock, hroom, hneed, hmax⟩
      · rw [hcap] at hgrow
        simp only [hgrow, hblock]
        exact relatedAt_fail rfl
      · rw [hcap] at hgrow
        simp only [hgrow, hblock, bind_assoc]
        apply relatedAt_same fun _ => rfl
        intro _ s
        obtain ⟨b', happend, hholds', hcap'⟩ := appendBlock_of chunk room hlen (by omega) hroom hmax
        rw [pure_bind, happend]
        exact relatedAt_pure ⟨⟨hholds', hcap'⟩, rfl⟩
    · simp only [if_neg hneed, pure_bind]
      obtain ⟨room, hblock, -, hroom⟩ := hholds.block (by omega)
      obtain ⟨b', happend, hholds', hcap'⟩ := appendBlock_of chunk room hlen (by omega) hroom hmax
      rw [show b = ⟨some (pb.bytes.map some ++ room), b.len, b.cap⟩ from by rw [← hblock], happend]
      exact relatedAt_pure ⟨⟨hholds', hcap'.trans hcap⟩, rfl⟩

end Buffers

/-! ## Printing to two sinks -/

/-- Two sinks that keep `V` between their data and `R` between the states, where `R` is
about the parts that the walker does not look at. -/
structure Sink.Alike {β γ : Type} (bl : Halt Status → Prop) (V : β → γ → Prop) (R : State → State → Prop) (out : Sink β)
    (out' : Sink γ) : Prop where
  heap : ∀ {s t}, R s t → s.heap = t.heap
  symtab : ∀ {s t}, R s t → s.symtab = t.symtab
  printDepth : ∀ {s t}, R s t → s.printDepth = t.printDepth
  setDepth : ∀ {s t} (depth : Nat), R s t → R { s with printDepth := depth } { t with printDepth := depth }
  setError : ∀ {s t} (message : Bytes), R s t → R (mlSetError 0 0 message s) (mlSetError 0 0 message t)
  emit : ∀ {s t user user'} (bytes : Bytes), R s t → V user user' →
    RelatedAt bl (fun user user' s t => V user user' ∧ R s t) R (out user bytes) (out' user' bytes) s t

section Walker
variable {β γ : Type} {bl : Halt Status → Prop} {V : β → γ → Prop} {R : State → State → Prop}
    {out : Sink β} {out' : Sink γ}
  {s t : State} {c : Config} {v : Val} {user : β} {user' : γ} {writeStyle : Bool} {printValue : Val → β → ML β}
  {printValue' : Val → γ → ML γ}

/-- How the runs with two such sinks are compared. -/
abbrev Prints.AlikeAt (bl : Halt Status → Prop) (V : β → γ → Prop) (R : State → State → Prop) (m : ML β)
    (m' : ML γ) (s t : State) :
    Prop :=
  RelatedAt bl (fun user user' s t => V user user' ∧ R s t) R m m' s t

theorem readObj_same {a : Nat} (h : s.heap = t.heap) : ReadSame (readObj a) (readObj a) s t := by
  apply ReadSame.bind (.gets (by rw [h]))
  intro o
  cases o with
  | none => exact .stuck
  | some o => exact .pure

theorem isObjType_same {p : Obj → Bool} (h : s.heap = t.heap) : ReadSame (isObjType p v) (isObjType p v) s t := by
  cases v with
  | obj a => cases a with
    | zero => exact .pure
    | succ a => exact .bind (readObj_same h) fun _ => .pure
  | _ => exact .pure

theorem asObj_same (h : s.heap = t.heap) : ReadSame (asObj v) (asObj v) s t := by
  cases v with
  | obj a => exact readObj_same h
  | _ => exact .stuck

theorem car_same (h : s.heap = t.heap) : ReadSame (car v) (car v) s t := by
  apply ReadSame.bind (asObj_same h)
  intro o
  cases o with
  | pair a d => exact .pure
  | _ => exact .stuck

theorem cdr_same (h : s.heap = t.heap) : ReadSame (cdr v) (cdr v) s t := by
  apply ReadSame.bind (asObj_same h)
  intro o
  cases o with
  | pair a d => exact .pure
  | _ => exact .stuck

theorem stringBytes_same (h : s.heap = t.heap) : ReadSame (stringBytes v) (stringBytes v) s t := by
  apply ReadSame.bind (asObj_same h)
  intro o
  cases o with
  | string bytes => exact .pure
  | _ => exact .stuck

theorem primFields_same (h : s.heap = t.heap) : ReadSame (primFields v) (primFields v) s t := by
  apply ReadSame.bind (asObj_same h)
  intro o
  cases o with
  | prim name fn min max => exact .pure
  | _ => exact .stuck

variable (hout : Sink.Alike bl V R out out')
include hout

theorem emitTo_alike {bytes : Bytes} (hR : R s t) (hV : V user user') :
    Prints.AlikeAt bl V R (emitTo out user bytes) (emitTo out' user' bytes) s t :=
  RelatedAt.ite (fun _ => relatedAt_pure ⟨hV, hR⟩) fun _ => hout.emit bytes hR hV

theorem emitQuotedLoop_alike {bs run : Bytes} (hR : R s t) (hV : V user user') :
    Prints.AlikeAt bl V R (emitQuotedLoop out bs run user) (emitQuotedLoop out' bs run user') s t := by
  induction bs generalizing run user user' s t with
  | nil => exact emitTo_alike hout hR hV
  | cons b bs ih =>
    apply RelatedAt.ite
    · intro _
      apply (emitTo_alike hout hR hV).bind
      rintro user user' s t ⟨hV, hR⟩
      apply (emitTo_alike hout hR hV).bind
      rintro user user' s t ⟨hV, hR⟩
      exact ih hR hV
    · exact fun _ => ih hR hV

theorem emitStringQuoted_alike {bytes : Bytes} (hR : R s t) (hV : V user user') :
    Prints.AlikeAt bl V R (emitStringQuoted out user bytes) (emitStringQuoted out' user' bytes) s t := by
  apply (emitTo_alike hout hR hV).bind
  rintro user user' s t ⟨hV, hR⟩
  apply (emitQuotedLoop_alike hout hR hV).bind
  rintro user user' s t ⟨hV, hR⟩
  exact emitTo_alike hout hR hV

section Pairs
variable (hprint : ∀ v user user' s t, R s t → V user user' → Prints.AlikeAt bl V R (printValue v user)
    (printValue' v user') s t)
include hprint

theorem printSpine_alike {n : Nat} (hR : R s t) (hV : V user user') :
    Prints.AlikeAt bl V R (printSpine out printValue n v user) (printSpine out' printValue' n v user') s t := by
  induction n generalizing v user user' s t with
  | zero => exact relatedAt_timeout
  | succ n ih =>
    apply relatedAt_read (isObjType_same (hout.heap hR)) hR
    intro isPair
    apply RelatedAt.ite
    · intro _
      apply (emitTo_alike hout hR hV).bind
      rintro user user' s t ⟨hV, hR⟩
      apply relatedAt_read (car_same (hout.heap hR)) hR
      intro elem
      apply (hprint _ _ _ _ _ hR hV).bind
      rintro user user' s t ⟨hV, hR⟩
      exact relatedAt_read (cdr_same (hout.heap hR)) hR fun _ => ih hR hV
    intro _
    apply RelatedAt.ite
    · intro _
      apply (emitTo_alike hout hR hV).bind
      rintro user user' s t ⟨hV, hR⟩
      exact hprint _ _ _ _ _ hR hV
    · exact fun _ => relatedAt_pure ⟨hV, hR⟩

theorem printPairContents_alike (hR : R s t) (hV : V user user') :
    Prints.AlikeAt bl V R (printPairContents out printValue v user)
      (printPairContents out' printValue' v user') s t := by
  apply relatedAt_read (car_same (hout.heap hR)) hR
  intro first
  apply (hprint _ _ _ _ _ hR hV).bind
  rintro user user' s t ⟨hV, hR⟩
  apply relatedAt_read (cdr_same (hout.heap hR)) hR
  intro rest
  exact relatedAt_read (.gets (by rw [hout.heap hR])) hR fun _ => printSpine_alike hout hprint hR hV

theorem printObject_alike (hR : R s t) (hV : V user user') :
    Prints.AlikeAt bl V R (printObject out writeStyle printValue v user)
      (printObject out' writeStyle printValue' v user') s t := by
  have hheap := hout.heap hR
  apply relatedAt_read (isObjType_same hheap) hR
  intro isString
  apply RelatedAt.ite
  · intro _
    apply relatedAt_read (stringBytes_same hheap) hR
    intro bytes
    exact .ite (fun _ => emitStringQuoted_alike hout hR hV) fun _ => emitTo_alike hout hR hV
  intro _
  apply relatedAt_read (isObjType_same hheap) hR
  intro isPair
  apply RelatedAt.ite
  · intro _
    apply (emitTo_alike hout hR hV).bind
    rintro user user' s t ⟨hV, hR⟩
    apply (printPairContents_alike hout hprint hR hV).bind
    rintro user user' s t ⟨hV, hR⟩
    exact emitTo_alike hout hR hV
  intro _
  apply relatedAt_read (isObjType_same hheap) hR
  intro isPrim
  apply RelatedAt.ite
  · intro _
    exact relatedAt_read (primFields_same hheap) hR fun _ => emitTo_alike hout hR hV
  intro _
  apply relatedAt_read (isObjType_same hheap) hR
  intro isClosure
  apply RelatedAt.ite fun _ => emitTo_alike hout hR hV
  intro _
  apply relatedAt_read (isObjType_same hheap) hR
  intro isEnv
  exact .ite (fun _ => emitTo_alike hout hR hV) fun _ => emitTo_alike hout hR hV

theorem printValueInner_alike (v : Val) (writeStyle : Bool) (hR : R s t) (hV : V user user') :
    Prints.AlikeAt bl V R (printValueInner out writeStyle printValue v user)
      (printValueInner out' writeStyle printValue' v user') s t := by
  cases v with
  | fix p => exact emitTo_alike hout hR hV
  | imm i => cases i <;> exact emitTo_alike hout hR hV
  | sym i => exact relatedAt_read (.gets (by rw [hout.symtab hR])) hR fun _ => emitTo_alike hout hR hV
  | obj a => exact printObject_alike hout hprint hR hV
  | reserved w => exact printObject_alike hout hprint hR hV

end Pairs

theorem printValue_alike {n : Nat} (hR : R s t) (hV : V user user') :
    Prints.AlikeAt bl V R (Microlisp.printValue out c writeStyle n v user)
      (Microlisp.printValue out' c writeStyle n v user') s t := by
  induction n generalizing v user user' s t with
  | zero => exact relatedAt_timeout
  | succ n ih =>
    apply relatedAt_read (.gets (hout.printDepth hR)) hR
    intro depth
    apply RelatedAt.ite
    · exact fun _ => relatedAt_modify (relatedAt_fail (hout.setError _ hR))
    · intro _
      apply relatedAt_modify
      have hleave : ∀ {s t}, R s t → R (leavePrint s) (leavePrint t) := by
        intro s t hR
        unfold leavePrint
        rw [hout.printDepth hR]
        exact hout.setDepth _ hR
      have henter : R { s with printDepth := s.printDepth + 1 } { t with printDepth := t.printDepth + 1 } := by
        rw [hout.printDepth hR]
        exact hout.setDepth _ hR
      have hinner := printValueInner_alike hout (fun v _ _ _ _ => ih (v := v)) v writeStyle henter hV
      exact hinner.andThen (fun _ _ _ _ h => ⟨h.1, hleave h.2⟩) fun _ _ => hleave

/-- The printer runs alike with two such sinks. -/
theorem mlPrint_alike (hR : R s t) (hV : V user user') :
    Prints.AlikeAt bl V R (mlPrint out c v writeStyle user) (mlPrint out' c v writeStyle user') s t :=
  relatedAt_read (.gets (hout.printDepth hR)) hR fun _ => printValue_alike hout hR hV

end Walker

/-! ## What was emitted -/

/-- The states differ at most in how often the allocator was asked. -/
def State.SameButAllocs (s t : State) : Prop := { s with allocs := t.allocs } = t

theorem State.SameButAllocs.eq {s t : State} (h : s.SameButAllocs t) : { s with allocs := t.allocs } = t := h

/-- The end of `ml_print_to_alloc`: the bytes and a NUL, in a block. -/
structure BlockBuf.Terminated (b : BlockBuf) (bytes : Bytes) : Prop where
  len : b.len = bytes.length
  block : ∃ rest, b.bytes = some ((bytes ++ [0]).map some ++ rest)

section Emitted
variable {c : Config} {b : BlockBuf} {pb : PrintBuf} {bytes chunk : Bytes} {s t : State} {v : Val} {writeStyle : Bool}

theorem printBufSink_wp : wp Mode.fully (printBufSink c pb chunk) s
    (fun pb' t => pb'.bytes = pb.bytes ++ chunk ∧ t = { s with allocs := t.allocs })
    (fun e t => e = .errNomem ∧ t = { s with allocs := t.allocs }) := by
  apply wp_ite
  · exact fun _ => wp_fail ⟨rfl, rfl⟩
  intro _
  apply wp_ite
  · intro _
    cases growCap (pb.bytes.length + chunk.length + 1) 65 (if pb.cap = 0 then 64 else pb.cap) with
    | none => exact wp_fail ⟨rfl, rfl⟩
    | some newCap =>
      apply wp_bind
      apply wp_mono rawAllocOrFail_wp
      · exact fun _ t ht => wp_pure ⟨rfl, ht⟩
      · exact fun e t ⟨he, _, ht⟩ => ⟨he, ht⟩
  · exact fun _ => wp_pure ⟨rfl, rfl⟩

/-- A chunk is appended, or there is no memory for it. -/
theorem blockSink_holds (h : b.Holds bytes) :
    wp Mode.fully (blockSink c b chunk) s (fun b' _ => b'.Holds (bytes ++ chunk))
    (fun e _ => e = .errNomem) := by
  have hbacks : b.Backs ⟨bytes, b.cap⟩ := ⟨h, rfl⟩
  apply wp_mono ((blockSink_backs hbacks s).transfer printBufSink_wp)
  · rintro b' _ ⟨pb', _, ⟨hb', -⟩, hbytes, -⟩
    rw [← hbytes]
    exact hb'.holds
  · rintro e _ ⟨_, -, he, -⟩
    exact he

/-- So are any chunks, one after another. -/
theorem blockSinks_holds (chunks : List Bytes) (h : b.Holds bytes) :
    wp Mode.fully (chunks.foldlM (blockSink c) b) s (fun b' _ => b'.Holds (bytes ++ chunks.flatten))
      (fun e _ => e = .errNomem) := by
  induction chunks generalizing b bytes s with
  | nil => exact wp_pure (by rwa [List.flatten_nil, List.append_nil])
  | cons chunk chunks ih =>
    rw [List.foldlM_cons]
    apply wp_seq (blockSink_holds h)
    intro b' _ hb'
    rw [List.flatten_cons, ← List.append_assoc]
    exact ih hb'

theorem blockSink_alike : Sink.Alike (fun _ => False) BlockBuf.Backs (· = ·) (blockSink c) (printBufSink c) where
  heap h := congrArg State.heap h
  symtab h := congrArg State.symtab h
  printDepth h := congrArg State.printDepth h
  setDepth _ h := by rw [h]
  setError _ h := by rw [h]
  emit bytes h hV := by
    subst h
    exact blockSink_backs hV _

theorem printBufSink_alike :
    Sink.Alike (· = .err .errNomem) (fun pb bytes => pb.bytes = bytes) State.SameButAllocs
      (printBufSink c) Sink.gather where
  heap h := by rw [← h.eq]
  symtab h := by rw [← h.eq]
  printDepth h := by rw [← h.eq]
  setDepth depth h := by
    have hset := congrArg (fun s : State => { s with printDepth := depth }) h.eq
    exact hset
  setError message h := by
    have hset := congrArg (mlSetError 0 0 message) h.eq
    exact hset
  emit {s t pb _} bytes h hV := by
    subst hV
    have h' : RelatedAt (· = .err .errNomem) (fun pb bytes s t => pb.bytes = bytes ∧ State.SameButAllocs s t)
        State.SameButAllocs
        (printBufSink c pb bytes >>= pure) (Sink.gather pb.bytes bytes) s t := by
      apply relatedAt_left printBufSink_wp
      · exact fun e _ he => congrArg Halt.err he.1
      · rintro pb' s' ⟨hbytes, hs'⟩
        apply relatedAt_pure
        refine ⟨hbytes, ?_⟩
        unfold State.SameButAllocs
        rw [hs']
        exact h
    rwa [bind_pure] at h'

/-- The two models of `ml_print_to_alloc` run alike. -/
theorem printToBlock_related (c : Config) (v : Val) (writeStyle : Bool) (s : State) :
    RelatedAt (fun _ => False) (fun b bytes s t => b.Terminated bytes ∧ s = t) (· = ·)
    (printToBlock c v writeStyle) (mlPrintToAlloc c v writeStyle) s s := by
  apply (mlPrint_alike blockSink_alike rfl ⟨BlockBuf.Holds.nil, rfl⟩).bind
  rintro b pb s _ ⟨⟨hholds, hcap⟩, rfl⟩
  have hlen := hholds.len
  simp only [ensureBlock]
  by_cases hzero : pb.cap = 0
  · have hbzero := hcap.trans hzero
    obtain ⟨-, hnil⟩ := hholds.null hbzero
    simp only [if_pos hzero, if_pos hbzero, bind_assoc]
    rw [allocBlock_bind (g := terminate ⟨some (List.replicate 1 none), b.len, 1⟩) rfl (by simp)]
    apply relatedAt_same fun _ => rfl
    intro _ s
    simp only [terminate, hlen, hnil]
    exact relatedAt_pure ⟨⟨rfl, [], rfl⟩, rfl⟩
  · obtain ⟨room, hblock, hroom, -⟩ := hholds.block (hcap ▸ hzero)
    have hnul : memcpy (pb.bytes.map some ++ room) b.len [some 0] 1 = pure
        (pb.bytes.map some ++ [some 0] ++ room.drop 1) :=
      memcpy_append (by rw [hlen, List.length_map]) rfl (List.length_pos_iff.2 hroom)
    simp only [if_neg hzero, if_neg (hcap ▸ hzero), pure_bind, terminate, hblock, hnul]
    exact relatedAt_pure ⟨⟨hlen, room.drop 1, by simp⟩, rfl⟩

/-- `ml_print_to_alloc` returns what the printer emits. -/
theorem mlPrintToAlloc_emits (c : Config) (v : Val) (writeStyle : Bool) (s : State) :
    RelatedAt (· = .err .errNomem) (fun bytes emitted s t => bytes = emitted ∧ State.SameButAllocs s t)
      State.SameButAllocs
      (mlPrintToAlloc c v writeStyle) (mlPrint Sink.gather c v writeStyle []) s s := by
  rw [← bind_pure (mlPrint Sink.gather c v writeStyle [])]
  have hsame : s.SameButAllocs s := rfl
  apply (mlPrint_alike printBufSink_alike hsame rfl).bind
  rintro pb _ s t ⟨rfl, hst⟩
  by_cases hzero : pb.cap = 0
  · simp only [if_pos hzero]
    apply relatedAt_left rawAllocOrFail_wp
    · exact fun e _ he => congrArg Halt.err he.1
    · intro _ s' hs'
      apply relatedAt_pure
      refine ⟨rfl, ?_⟩
      unfold State.SameButAllocs
      rw [hs']
      exact hst
  · simp only [if_neg hzero]
    exact relatedAt_pure ⟨rfl, hst⟩

/-- On success the caller's variables have the block and its length. -/
theorem printToAlloc_ok (wantLen : Bool) (out : PrintOut) (h : (printToBlock c v writeStyle s).res = .ok b) :
    (printToAlloc c v writeStyle wantLen (s, out)).res = .ok () ∧
    (printToAlloc c v writeStyle wantLen (s, out)).state.2 = ⟨b.bytes, if wantLen then b.len else out.len⟩ := by
  unfold printToAlloc
  rw [bind_of_ok (a := b) (by exact h)]
  cases wantLen with
  | true => exact ⟨rfl, rfl⟩
  | false => exact ⟨rfl, rfl⟩

/-- On failure they are as they were. -/
theorem printToAlloc_error (wantLen : Bool) (out : PrintOut) {x : Halt Status}
    (h : (printToBlock c v writeStyle s).res = .error x) :
    (printToAlloc c v writeStyle wantLen (s, out)).res = .error x ∧
      (printToAlloc c v writeStyle wantLen (s, out)).state.2 = out := by
  unfold printToAlloc
  rw [bind_of_error (x := x) (by exact h)]
  exact ⟨rfl, rfl⟩

/-- The buffer holds the chunks sent to it, in a block with room for a NUL, as long as there
is memory, and no size wraps on the way. So `ml_print_to_alloc` returns what the printer
emits and a NUL; where it fails, for want of memory or because the printer does, it leaves
the caller's variables as they were. -/
theorem print_buffer_exact (c : Config) :
    (∀ (chunks : List Bytes) (s : State), ∃ o, ((chunks.foldlM (blockSink c) ⟨none, 0, 0⟩ : ML BlockBuf) s).Ends o ∧
      (∀ b, o = .ok b → b.Holds chunks.flatten ∧ (b.cap ≠ 0 → b.len < b.cap)) ∧ ∀ e, o = .error e → e = .errNomem) ∧
    ∀ v writeStyle wantLen s out,
      ((printToAlloc c v writeStyle wantLen (s, out)).res = .ok () → ∃ bytes rest,
        (mlPrint Sink.gather c v writeStyle [] s).res = .ok bytes ∧
        (printToAlloc c v writeStyle wantLen (s, out)).state.2.bytes = some ((bytes ++ [0]).map some ++ rest) ∧
        (wantLen = true → (printToAlloc c v writeStyle wantLen (s, out)).state.2.len = bytes.length)) ∧
      ∀ x, (printToAlloc c v writeStyle wantLen (s, out)).res = .error x →
        (printToAlloc c v writeStyle wantLen (s, out)).state.2 = out ∧
        (x = .err .errNomem ∨ (mlPrint Sink.gather c v writeStyle [] s).res = .error x) := by
  constructor
  · intro chunks s
    obtain ⟨o, ho, hok, herr⟩ := ends_of_wp_fully (blockSinks_holds chunks BlockBuf.Holds.nil)
    exact ⟨o, ho, fun b hb => ⟨hok b hb, (hok b hb).len_lt⟩, herr⟩
  intro v writeStyle wantLen s out
  have hblock := printToBlock_related c v writeStyle s
  have hbytes := mlPrintToAlloc_emits c v writeStyle s
  cases hr : (printToBlock c v writeStyle s).res with
  | ok b =>
    obtain ⟨hres, hout⟩ := printToAlloc_ok wantLen out hr
    rw [hres, hout]
    refine ⟨fun _ => ?_, nofun⟩
    obtain ⟨bytes, hprinted, hterminated, -⟩ := hblock.ok hr
    obtain ⟨emitted, hemitted, rfl, -⟩ := hbytes.ok hprinted
    obtain ⟨rest, hrest⟩ := hterminated.block
    exact ⟨bytes, rest, hemitted, hrest, fun h => by rw [if_pos h, hterminated.len]⟩
  | error x =>
    obtain ⟨hres, hout⟩ := printToAlloc_error wantLen out hr
    rw [hres, hout]
    refine ⟨nofun, ?_⟩
    rintro _ ⟨⟩
    exact ⟨rfl, hbytes.error ((hblock.error hr).resolve_left id)⟩

end Emitted

end Microlisp
