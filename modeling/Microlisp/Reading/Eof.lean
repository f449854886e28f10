import Microlisp.Balance.Inside
import Microlisp.Progress
/-!
# What reads as `MV_EOF`

From any state at all, only a text without a form reads as `MV_EOF`. A list that is read could
be `MV_EOF` only if a cell that is made on the way came to end in it.
-/
namespace Microlisp

open Prog Reader

/-- No pair made at address `n` or later ends in `MV_EOF`. Something was made below `top`. -/
structure State.NoEof (n top : Nat) (s : State) : Prop where
  next : top ≤ s.heap.next
  pairs : ∀ a x d, n ≤ a → a < s.heap.next → s.heap.get a = some (.pair x d) → d ≠ mvEof

/-- `m` keeps it so, and what it returns meets `Q`. -/
def Sealed {α : Type} (n top : Nat) (m : ML α) (Q : α → Prop) : Prop :=
  Triple Mode.partly (State.NoEof n top) m (fun a s => Q a ∧ s.NoEof n top) (fun _ _ => True)

namespace Sealed

variable {α β : Type} {n top : Nat} {m m' : ML α} {f : α → ML β} {Q Q' : α → Prop} {U : β → Prop}

theorem pure {a : α} (h : Q a) : Sealed n top (Pure.pure a : ML α) Q := Triple.pure fun _ hs => ⟨h, hs⟩

theorem raise {line column : Nat} {message : Bytes} {e : Status} :
    Sealed n top (Microlisp.raise line column message e : ML α) Q :=
  fun _ _ => wp_bind (wp_modify (wp_fail trivial))

theorem stuck : Sealed n top (Prog.stuck : ML α) Q := Triple.stuck fun _ _ => id

theorem timeout : Sealed n top (Prog.timeout : ML α) Q := Triple.timeout fun _ _ => id

theorem bind (h : Sealed n top m Q) (hf : ∀ a, Q a → Sealed n top (f a) U) : Sealed n top (m >>= f) U :=
  Triple.bind h fun a s hq => hf a hq.1 s hq.2

theorem given {a : α} (h : Sealed n top (f a) U) : Sealed n top (Pure.pure a >>= f) U := by rwa [pure_bind]

theorem ite {b : Prop} [Decidable b] (h : b → Sealed n top m Q) (h' : ¬ b → Sealed n top m' Q) :
    Sealed n top (if b then m else m') Q := Triple.ite h h'

theorem onErr {g : State → State} (h : Sealed n top m Q) : Sealed n top (m.onErr g) Q := Triple.onErr h

theorem mono (h : Sealed n top m Q) (hQ : ∀ a, Q a → Q' a) : Sealed n top m Q' :=
  fun s hs => wp_mono (h s hs) (fun a _ ha => ⟨hQ a ha.1, ha.2⟩) fun _ _ h => h

/-- What leaves the heap alone. -/
theorem of_heap (h : ∀ s, wp Mode.partly m s (fun a t => t.heap = s.heap ∧ Q a) (fun _ _ => True)) :
    Sealed n top m Q := by
  intro s hs
  apply wp_mono (h s) _ fun _ _ h => h
  rintro a t ⟨ht, ha⟩
  exact ⟨ha, ht ▸ hs.next, ht ▸ hs.pairs⟩

theorem look {g : State → α} (hf : ∀ a, Sealed n top (f a) U) : Sealed n top (Prog.gets g >>= f) U :=
  bind (Q := fun _ => True) (.of_heap fun _ => wp_gets ⟨rfl, trivial⟩) fun a _ => hf a

theorem modify {g : State → State} (hg : ∀ s, (g s).heap = s.heap) : Sealed n top (Prog.modify g) (fun _ => True) :=
  .of_heap fun s => wp_modify ⟨hg s, trivial⟩

theorem change {g : State → State} {f : Unit → ML β} (hf : Sealed n top (f ()) U) (hg : ∀ s, (g s).heap = s.heap) :
    Sealed n top (Prog.modify g >>= f) U := (modify hg).bind fun _ _ => hf

theorem andThen {g : State → State} (h : Sealed n top m Q) (hg : ∀ s, (g s).heap = s.heap) :
    Sealed n top (m.andThen g) Q := by
  intro s hs
  apply wp_andThen
  apply wp_mono (h s hs) _ fun _ _ h => h
  rintro a t ⟨ha, ht⟩
  exact ⟨ha, (hg t).symm ▸ ht.next, (hg t).symm ▸ ht.pairs⟩

end Sealed

section Memory
variable {c : Config} {n top : Nat} {v d : Val}

theorem rawAllocOrFail_sealed {size : Nat} : Sealed n top (rawAllocOrFail c size) (fun _ => True) :=
  .of_heap fun _ => wp_mono rawAllocOrFail_wp (fun _ _ ht => ⟨by rw [ht], trivial⟩) fun _ _ _ => trivial

theorem mlGcProtect_sealed : Sealed n top (mlGcProtect c v) (fun _ => True) :=
  .of_heap fun _ => wp_mono mlGcProtect_wp (fun _ _ ht => ⟨by rw [ht], trivial⟩) fun _ _ _ => trivial

theorem maybeCollect_sealed : Sealed n top (maybeCollect c) (fun _ => True) := by
  apply Sealed.look
  intro due
  apply Sealed.ite _ fun _ => .pure trivial
  intro _ s hs
  apply wp_mono (mlGcCollect_shrunk (E := fun _ _ => True) (G := fun _ => True) watches_partly
    fun _ _ _ => trivial) _ fun _ _ h => h
  rintro _ t ⟨-, hnext, hsub⟩
  exact ⟨trivial, hnext ▸ hs.next, fun a x d ha hlt ho => hs.pairs a x d ha (hnext ▸ hlt) (hsub a _ ho)⟩

/-- A new object, above what was made before. -/
theorem gcAlloc_made {size : Nat} {o : Obj} (hn : n ≤ top) (ho : ∀ x d, o = .pair x d → d ≠ mvEof) :
    Triple Mode.partly (State.NoEof n top) (gcAlloc c size o) (fun v s => ∃ a, v = .obj a ∧ n ≤ a ∧
      top ≤ a ∧ s.NoEof n (a + 1))
      (fun _ _ => True) := by
  have hlink : Triple Mode.partly (State.NoEof n top) (linkObject o)
      (fun v s => ∃ a, v = .obj a ∧ n ≤ a ∧ top ≤ a ∧ s.NoEof n (a + 1)) (fun _ _ => True) := by
    intro s hs
    apply wp_mono (linkObject_wp trivial) _ fun _ _ h => h
    rintro v t ⟨rfl, rfl⟩
    refine ⟨_, rfl, Nat.le_trans hn hs.next, hs.next, Nat.le_refl _, ?_⟩
    intro a x d ha hlt hget
    rw [Heap.get_alloc] at hget
    split at hget
    · cases hget
      exact ho x d rfl
    · rename_i hne
      exact hs.pairs a x d ha (Nat.lt_of_le_of_ne (Nat.le_of_lt_succ hlt) hne) hget
  apply Triple.bind maybeCollect_sealed
  rintro _ s ⟨-, hs⟩
  apply wp_seq (rawAllocOrFail_sealed s hs)
  rintro _ t ⟨-, ht⟩
  exact hlink t ht

/-- The handle of a new object. -/
theorem gcAlloc_sealed {size : Nat} {o : Obj} (hn : n ≤ top) (ho : ∀ x d, o = .pair x d → d ≠ mvEof) :
    Sealed n top (gcAlloc c size o) (fun v => ∃ a, v = .obj a) := by
  apply (gcAlloc_made hn ho).conseq (fun _ h => h) _ fun _ _ h => h
  rintro v s ⟨a, rfl, -, ha, hs⟩
  exact ⟨⟨a, rfl⟩, Nat.le_trans (Nat.le_succ_of_le ha) hs.next, hs.pairs⟩

theorem nil_ne_eof : mvNil ≠ mvEof := nofun

theorem obj_ne_eof {a : Nat} : Val.obj a ≠ mvEof := nofun

theorem gcAllocPair_sealed {x : Val} (hn : n ≤ top) (hd : d ≠ mvEof) :
    Sealed n top (mlGcAllocPair c x d) (fun v => ∃ a, v = .obj a) := by
  apply gcAlloc_sealed hn
  rintro _ _ ⟨⟩
  exact hd

theorem gcAllocString_sealed {bytes : Bytes} (hn : n ≤ top) :
    Sealed n top (mlGcAllocString c bytes) (fun v => ∃ a, v = .obj a) :=
  gcAlloc_sealed hn nofun

theorem asObj_sealed : Sealed n top (asObj v) (fun _ => True) :=
  .of_heap fun _ => wp_mono (asObj_wp False.elim) (fun _ _ h => ⟨by rw [h.1], trivial⟩) fun _ _ h => h

/-- A cell of a list that is read is not ended by `MV_EOF`. -/
theorem setCdr_sealed (hd : d ≠ mvEof) : Sealed n top (setCdr v d) (fun _ => True) := by
  apply asObj_sealed.bind
  intro o _
  cases o with
  | pair x _ =>
    intro s hs
    apply wp_mono (writeObj_wp False.elim fun _ _ => trivial) _ fun _ _ h => h
    rintro _ t ⟨b, -, rfl⟩
    refine ⟨trivial, hs.next, fun a y d' ha hlt hget => ?_⟩
    rw [Heap.get_set] at hget
    split at hget
    · obtain ⟨_, -, hset⟩ := Option.map_eq_some_iff.1 hget
      cases hset
      exact hd
    · exact hs.pairs a y d' ha hlt hget
  | _ => exact .stuck

theorem cdr_sealed {a : Nat} (ha : n ≤ a) (htop : a < top) : Sealed n top (cdr (.obj a)) (· ≠ mvEof) := by
  intro s hs
  apply wp_mono (cdr_wp False.elim) _ fun _ _ h => h
  rintro d _ ⟨rfl, x, b, hb, hget⟩
  cases hb
  exact ⟨hs.pairs _ x d ha (Nat.lt_of_lt_of_le htop hs.next) hget, hs⟩

theorem mlSymIntern_sealed {name : Bytes} : Sealed n top (mlSymIntern c name) (· ≠ mvEof) := by
  apply Sealed.of_heap
  intro s
  apply wp_mono mlSymIntern_adds _ fun _ _ _ => trivial
  rintro _ t ⟨⟨i, rfl⟩, -, ht⟩
  exact ⟨by rw [ht], nofun⟩

end Memory
/-! ## Reading -/

section Reading
variable {c : Config} {n top : Nat} {r r' : Reader} {v : Val}

/-- The value is `MV_EOF` only where the text has no form, and then the reader is at its end. -/
def OnlyEnd (r : Reader) (x : Val × Reader) : Prop :=
  x.1 = mvEof → (skipWsAndComments r).peek = none ∧ x.2 = skipWsAndComments r

theorem readString_sealed (hn : n ≤ top) : Sealed n top (readString c r) (fun x => x.1 ≠ mvEof) := by
  have hescape : ∀ l k r, Sealed n top (readEscape l k r) (fun _ => True) := by
    intro l k r
    unfold readEscape
    cases r.peek with
    | none => exact .raise
    | some esc =>
      iterate 6 refine .ite (fun _ => .pure trivial) fun _ => ?_
      apply Sealed.ite _ fun _ => .raise
      intro _
      dsimp only
      split
      · exact .pure trivial
      · exact .raise
  have hloop : ∀ l k m r buf cap, Sealed n top (readStringLoop c l k m r buf cap) (fun _ => True) := by
    intro l k m
    induction m with
    | zero => exact fun _ _ _ => .timeout
    | succ m ih =>
      intro r buf cap
      unfold readStringLoop
      cases r.peek with
      | none => exact .raise
      | some b =>
        have hpush : ∀ x : UInt8 × Reader, Sealed n top (do
            let cap ← if buf.length = cap then do
                rawAllocOrFail c (cap * 2)
                pure (cap * 2)
              else pure cap
            readStringLoop c l k m x.2 (buf ++ [x.1]) cap) (fun _ => True) := by
          intro x
          apply Sealed.ite
          · exact fun _ => rawAllocOrFail_sealed.bind fun _ _ => .given (ih _ _ _)
          · exact fun _ => .given (ih _ _ _)
        apply Sealed.ite (fun _ => .pure trivial)
        intro _
        exact .ite (fun _ => (hescape _ _ _).bind fun x _ => hpush x) fun _ => .given (hpush (b, r.advance))
  apply rawAllocOrFail_sealed.bind
  intro _ _
  apply (hloop _ _ _ _ _ _).bind
  intro x _
  apply (gcAllocString_sealed hn).bind
  rintro _ ⟨a, rfl⟩
  exact .pure (fun h => by cases h)

theorem readHash_sealed : Sealed n top (readHash r) (fun x => x.1 ≠ mvEof) := by
  apply Sealed.ite (fun _ => .pure nofun)
  intro _
  exact .ite (fun _ => .pure nofun) fun _ => .raise

theorem readNumber_sealed {sign : Int} : Sealed n top (readNumber sign r) (fun x => x.1 ≠ mvEof) := by
  unfold readNumber
  dsimp only
  split
  · exact .raise
  · rename_i value any r' _
    apply Sealed.ite (fun _ => .raise)
    intro _
    apply Sealed.ite (fun _ => .raise)
    intro _
    have hfix : ∀ x : Int, Sealed n top (if x < mFixMin || x > mFixMax then
        (raise r.line r.column (ascii "integer literal exceeds 60-bit fixnum range") .errOverflow : ML (Val × Reader))
      else do
        let v ← makeFix x
        pure (v, r')) (fun x => x.1 ≠ mvEof) := by
      intro x
      apply Sealed.ite (fun _ => .raise)
      intro _ s hs
      apply wp_bind
      apply makeFix_wp trivial
      exact wp_pure ⟨nofun, hs⟩
    apply Sealed.ite
    · intro _
      have hneg : Sealed n top (int64Op (-value)) (fun _ => True) := by
        intro s hs
        exact int64Op_wp trivial False.elim ⟨trivial, hs⟩
      exact hneg.bind fun _ _ => hfix _
    · exact fun _ => .given (hfix _)

theorem readSymbol_sealed : Sealed n top (readSymbol c r) (fun x => x.1 ≠ mvEof) :=
  mlSymIntern_sealed.bind fun _ h => .pure h

section Nested
variable {rf : Reader → ML (Val × Reader)} (hn : n ≤ top) (hrf : ∀ top r, n ≤ top → Sealed n top (rf r) (OnlyEnd r))
include hn hrf

theorem readListLoop_sealed {sp : Nat} {head : Val} (m : Nat) (tail : Val) (r : Reader) :
    Sealed n top (readListLoop c rf sp head m tail r) (fun _ => True) := by
  induction m generalizing tail r with
  | zero => exact .timeout
  | succ m ih =>
    unfold readListLoop
    dsimp only
    cases (skipWsAndComments r).peek with
    | none => exact .onErr .raise
    | some b =>
      apply Sealed.ite (fun _ => .pure trivial)
      intro _
      apply Sealed.ite
      · intro _
        apply Sealed.ite (fun _ => .onErr .raise)
        intro _
        apply (hrf _ _ hn).onErr.bind
        rintro ⟨cdrForm, r'⟩ hform
        by_cases heof : cdrForm = mvEof
        · -- the text is at its end, and the parenthesis is missed
          have hend : (skipWsAndComments r').peek = none := by
            obtain ⟨hpeek, hr'⟩ := hform heof
            rw [show r' = _ from hr', skip_skip, hpeek]
          dsimp only
          rw [hend, if_pos (by simp)]
          intro s hs
          apply wp_seq (wp_true _ s)
          intro _ t _
          exact wp_onErr (wp_bind (wp_modify (wp_fail trivial)))
        · exact (setCdr_sealed heof).bind fun _ _ => .ite (fun _ => .onErr .raise) fun _ => .pure trivial
      · intro _
        apply (hrf _ _ hn).onErr.bind
        rintro ⟨elem, r'⟩ -
        apply mlGcProtect_sealed.onErr.bind
        intro _ _
        have hcell : Sealed n top ((mlGcAllocPair c elem mvNil).andThen (mlGcUnprotect 1)) (fun v => ∃ a, v = .obj a) :=
          (gcAllocPair_sealed hn nil_ne_eof).andThen fun _ => rfl
        apply hcell.onErr.bind
        rintro _ ⟨a, rfl⟩
        exact (setCdr_sealed obj_ne_eof).bind fun _ _ => ih _ _

theorem readList_sealed : Sealed n top (readList c rf r) (fun x => x.1 ≠ mvEof) := by
  apply Sealed.ite (fun _ => .raise)
  intro _
  apply Sealed.ite (fun _ => .pure nofun)
  intro _
  apply Sealed.look
  intro sp
  apply Triple.bind (gcAlloc_made hn fun _ _ h => by cases h; exact nil_ne_eof)
  rintro _ s ⟨a, rfl, ha, htop, hs⟩
  have hrest : Sealed n (a + 1) (do
      mlGcProtect c (.obj a)
      let r ← readListLoop c rf sp (.obj a) ((skipWsAndComments { r with depth := r.depth + 1 }).rest.length + 1)
        (.obj a)
        (skipWsAndComments { r with depth := r.depth + 1 })
      let out ← cdr (.obj a)
      modify (mlGcRestore sp)
      pure (out, { r with depth := r.depth - 1 })) (fun x => x.1 ≠ mvEof) := by
    apply mlGcProtect_sealed.bind
    intro _ _
    apply (readListLoop_sealed (Nat.le_succ_of_le ha) hrf _ _ _).bind
    intro r' _
    apply (cdr_sealed ha (Nat.lt_succ_self a)).bind
    intro out hout
    exact .change (.pure hout) fun _ => rfl
  apply wp_mono (hrest s hs) _ fun _ _ h => h
  rintro x t ⟨hx, ht⟩
  exact ⟨hx, Nat.le_trans (Nat.le_succ_of_le htop) ht.next, ht.pairs⟩

theorem readQuote_sealed : Sealed n top (readQuote c rf r) (fun x => x.1 ≠ mvEof) := by
  apply (hrf _ _ hn).bind
  rintro ⟨form, r'⟩ -
  apply Sealed.ite (fun _ => .raise)
  intro _
  apply Sealed.look
  intro sp
  apply mlGcProtect_sealed.bind
  intro _ _
  apply (gcAllocPair_sealed hn nil_ne_eof).onErr.bind
  rintro _ ⟨inner, rfl⟩
  refine Sealed.change ?_ fun _ => rfl
  apply mlGcProtect_sealed.bind
  intro _ _
  have hout : Sealed n top ((mlGcAllocPair c c.symQuote (.obj inner)).andThen (mlGcRestore sp))
      (fun v => ∃ a, v = .obj a) :=
    (gcAllocPair_sealed hn obj_ne_eof).andThen fun _ => rfl
  apply hout.bind
  rintro _ ⟨a, rfl⟩
  exact .pure nofun

end Nested

theorem readForm_sealed (m top : Nat) (r : Reader) (hn : n ≤ top) : Sealed n top (readForm c m r) (OnlyEnd r) := by
  induction m generalizing top r with
  | zero => exact .timeout
  | succ m ih =>
    have hform : ∀ {m : ML (Val × Reader)}, Sealed n top m (fun x => x.1 ≠ mvEof) → Sealed n top m (OnlyEnd r) :=
      fun h => h.mono fun _ hx heof => absurd heof hx
    unfold readForm
    dsimp only
    cases hpeek : (skipWsAndComments r).peek with
    | none => exact .pure fun _ => ⟨hpeek, rfl⟩
    | some b =>
      apply Sealed.ite (fun _ => hform (readList_sealed hn ih))
      intro _
      apply Sealed.ite (fun _ => .raise)
      intro _
      apply Sealed.ite (fun _ => hform (readQuote_sealed hn ih))
      intro _
      apply Sealed.ite (fun _ => hform (readString_sealed hn))
      intro _
      apply Sealed.ite (fun _ => hform readHash_sealed)
      intro _
      apply Sealed.ite (fun _ => hform readNumber_sealed)
      intro _
      apply Sealed.ite
      · exact fun _ => .ite (fun _ => hform readNumber_sealed) fun _ => hform readSymbol_sealed
      · exact fun _ => hform readSymbol_sealed

end Reading

/-- From any state, what is read of a form is not `MV_EOF`. -/
theorem mlRead_eof {c : Config} {r r' : Reader} {s : State} {v : Val} (hres : (mlRead c r s).res = .ok (v, r'))
    (hv : v = mvEof) :
    (skipWsAndComments r).peek = none := by
  have hstart : s.NoEof s.heap.next s.heap.next := ⟨Nat.le_refl _, fun a x d ha hlt _ => absurd ha (Nat.not_le.2 hlt)⟩
  have hread := (readForm_sealed (c := c) (r.rest.length + 1) s.heap.next r (Nat.le_refl _) s hstart fun _ _ => id).2
  unfold mlRead at hres
  rw [hres] at hread
  exact (hread.1 hv).1

end Microlisp
