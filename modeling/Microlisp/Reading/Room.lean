import Microlisp.Reading.Read
/-!
# Reading with memory

The allocator is not all that can refuse a read: a symbol's index has 28 bits. A read adds
at most one name for each byte it takes, so it runs out of memory only where the table is
nearly full.
-/
namespace Microlisp

open Prog Reader

/-- The table has room for that many more names. -/
def State.Room (n : Nat) (s : State) : Prop := s.symtab.entries.length + n ≤ 0x10000000

instance {n : Nat} {s : State} : Decidable (s.Room n) := inferInstanceAs (Decidable (_ ≤ _))

/-- From a table with room for the bytes to read to one with room for those that are left,
and never out of memory. -/
def Granted {α : Type} (r : Reader) (m : ML (α × Reader)) : Prop :=
  Triple (Mode.noting fun _ => True) (State.Room r.rest.length) m
    (fun x s => x.2.rest.length ≤ r.rest.length ∧ s.Room x.2.rest.length) (fun e _ => e ≠ .errNomem)

section Room
variable {c : Config} {α β : Type} {n k : Nat} {E : Status → State → Prop} {m : ML α} {f : α → ML β}

theorem State.Room.mono {s : State} (h : s.Room n) (hk : k ≤ n) : s.Room k :=
  Nat.le_trans (Nat.add_le_add_left hk _) h

theorem raise_room {Q : α → State → Prop} {l k : Nat} {message : Bytes} {e : Status} (he : e ≠ .errNomem) :
    Triple (Mode.noting fun _ => True) (State.Room n) (raise l k message e : ML α) Q (fun e _ => e ≠ .errNomem) :=
  fun _ _ => wp_bind (wp_modify (wp_fail he))

variable (hc : ∀ n size, c.alloc n size = true)
include hc

/-- What holds of the table stays. -/
theorem rawAllocOrFail_table {P : Symtab → Prop} {size : Nat} (hsize : size ≠ 0) :
    Triple (Mode.noting fun _ => True) (fun s => P s.symtab) (rawAllocOrFail c size) (fun _ s => P s.symtab) E := by
  intro s hs
  apply wp_mono rawAllocOrFail_wp
  · rintro _ t ht
    rw [ht]
    exact hs
  · rintro e t ⟨-, hzero | ⟨n, hn⟩, -⟩
    · exact absurd hzero hsize
    · rw [hc] at hn
      cases hn

theorem mlGcProtect_table {P : Symtab → Prop} {v : Val} :
    Triple (Mode.noting fun _ => True) (fun s => P s.symtab) (mlGcProtect c v) (fun _ s => P s.symtab) E := by
  intro s hs
  apply wp_mono mlGcProtect_wp
  · rintro _ t ht
    rw [ht]
    exact hs
  · rintro e t ⟨-, ⟨n, size, hn⟩, -⟩
    rw [hc] at hn
    cases hn

theorem rawAllocOrFail_room {size : Nat} (hsize : size ≠ 0) :
    Triple (Mode.noting fun _ => True) (State.Room n) (rawAllocOrFail c size) (fun _ => State.Room n) E :=
  rawAllocOrFail_table (P := fun t => t.entries.length + n ≤ 0x10000000) hc hsize

theorem mlGcProtect_room {v : Val} :
    Triple (Mode.noting fun _ => True) (State.Room n) (mlGcProtect c v) (fun _ => State.Room n) E :=
  mlGcProtect_table (P := fun t => t.entries.length + n ≤ 0x10000000) hc

/-- One name more at most. -/
theorem mlSymIntern_room {name : Bytes} :
    Triple (Mode.noting fun _ => True) (State.Room (n + 1)) (mlSymIntern c name) (fun _ => State.Room n) E := by
  have hadd : ∀ entries : List Bytes, Triple (Mode.noting fun _ => True)
      (fun s => s.Room (n + 1) ∧ entries = s.symtab.entries)
      (if entries.length > 0x0FFFFFFF then
        fail .errNomem
      else do
        rawAllocOrFail c (name.length + 1)
        modify fun s => { s with symtab := ⟨s.symtab.entries ++ [name], s.symtab.capacity⟩ }
        pure (mlMakeSym entries.length)) (fun _ => State.Room n) E := by
    rintro entries s ⟨hs, rfl⟩
    have hlen : ¬ s.symtab.entries.length > 0x0FFFFFFF := by
      unfold State.Room at hs
      omega
    rw [if_neg hlen]
    apply wp_seq (rawAllocOrFail_room hc (Nat.succ_ne_zero _) s hs)
    intro _ t ht
    have hroom : State.Room n { t with symtab := ⟨t.symtab.entries ++ [name], t.symtab.capacity⟩ } := by
      unfold State.Room at ht ⊢
      rw [List.length_append, List.length_singleton]
      omega
    exact wp_bind (wp_modify (wp_pure hroom))
  intro s hs
  apply wp_bind (wp_gets _)
  split
  · exact wp_pure (hs.mono (Nat.le_succ n))
  · apply wp_bind (wp_gets _)
    apply wp_ite
    · intro _
      have hcap : (if s.symtab.capacity = 0 then 32 else s.symtab.capacity * 2) * 16 ≠ 0 := by
        split
        · decide
        · omega
      apply wp_bind (wp_mono rawAllocOrFail_wp _ _)
      · intro _ t ht
        have hkept : t.symtab = s.symtab := by rw [ht]
        have hroom : t.Room (n + 1) := by
          unfold State.Room
          rw [hkept]
          exact hs
        exact wp_bind (wp_modify (hadd _ _ ⟨hroom, by rw [hkept]⟩))
      · rintro e t ⟨-, hzero | ⟨n, hn⟩, -⟩
        · exact absurd hzero hcap
        · rw [hc] at hn
          cases hn
    · exact fun _ => wp_bind (wp_pure (hadd _ _ ⟨hs, rfl⟩))

variable (hd : ∀ s, c.collectDue s = false)
include hd

theorem gcAlloc_table {P : Symtab → Prop} {size : Nat} {o : Obj} (hsize : size ≠ 0) :
    Triple (Mode.noting fun _ => True) (fun s => P s.symtab) (gcAlloc c size o) (fun _ s => P s.symtab) E := by
  have hcollect : Triple (Mode.noting fun _ => True) (fun s => P s.symtab) (maybeCollect c)
      (fun _ s => P s.symtab) E := by
    apply Triple.bind (Q := fun due s => P s.symtab ∧ due = false) (.gets fun s hs => ⟨hs, hd s⟩)
    rintro due
    exact .ite (fun hdue s hs => absurd hdue (by simp [hs.2])) fun _ => .pure fun _ hs => hs.1
  apply hcollect.seq fun _ => (rawAllocOrFail_table hc hsize).seq fun _ => ?_
  intro s hs
  apply wp_mono (linkObject_wp (E := E) trivial) _ fun _ _ h => h
  rintro _ t ⟨-, rfl⟩
  exact hs

theorem gcAlloc_room {size : Nat} {o : Obj} (hsize : size ≠ 0) :
    Triple (Mode.noting fun _ => True) (State.Room n) (gcAlloc c size o) (fun _ => State.Room n) E :=
  gcAlloc_table (P := fun t => t.entries.length + n ≤ 0x10000000) hc hd hsize

end Room

/-! ## Tokens -/

section Tokens
variable {c : Config} {α : Type} {r : Reader} {n : Nat}

theorem Granted.pure {x : α × Reader} (h : x.2.rest.length ≤ r.rest.length) : Granted r (Pure.pure x : ML _) :=
  Triple.pure fun _ hs => ⟨h, hs.mono h⟩

theorem Granted.raise {l k : Nat} {message : Bytes} {e : Status} (he : e ≠ .errNomem) :
    Granted r (Microlisp.raise l k message e : ML (α × Reader)) := raise_room he

theorem Granted.ite {b : Prop} [Decidable b] {m m' : ML (α × Reader)} (h : b → Granted r m) (h' : ¬ b → Granted r m') :
    Granted r (if b then m else m') := Triple.ite h h'

theorem Granted.from {r' : Reader} {m : ML (α × Reader)} (h : Granted r' m)
    (hle : r'.rest.length ≤ r.rest.length) : Granted r m :=
  h.conseq (fun _ hs => hs.mono hle) (fun _ _ hx => ⟨hx.1.trans hle, hx.2⟩) fun _ _ h => h

theorem Granted.bind {β : Type} {m : ML (α × Reader)} {f : α × Reader → ML (β × Reader)} (h : Granted r m)
    (hf : ∀ x, x.2.rest.length ≤ r.rest.length → Granted x.2 (f x)) : Granted r (m >>= f) := by
  apply Triple.bind h
  intro x s hs
  exact wp_mono (hf x hs.1 s hs.2) (fun _ _ hx => ⟨hx.1.trans hs.1, hx.2⟩) fun _ _ h => h

theorem advance_length_le : r.advance.rest.length ≤ r.rest.length := (past_advance r).length_le

theorem readEscape_room {l k : Nat} : Granted r (readEscape l k r) := by
  have hone := advance_length_le (r := r)
  have htwo := advance_length_le (r := r.advance)
  have hthree := advance_length_le (r := r.advance.advance)
  unfold readEscape
  split
  · exact .raise (by decide)
  · dsimp only
    refine .ite (fun _ => .pure hone) fun _ => .ite (fun _ => .pure hone) fun _ =>
      .ite (fun _ => .pure hone) fun _ => ?_
    refine .ite (fun _ => .pure hone) fun _ => .ite (fun _ => .pure hone) fun _ =>
      .ite (fun _ => .pure hone) fun _ => ?_
    refine .ite (fun _ => ?_) fun _ => .raise (by decide)
    split
    · exact .pure (hthree.trans (htwo.trans hone))
    · exact .raise (by decide)

theorem readHash_room : Granted r (readHash r) := by
  have hone := advance_length_le (r := r)
  have htwo := advance_length_le (r := r.advance)
  exact .ite (fun _ => .pure (htwo.trans hone)) fun _ => .ite (fun _ => .pure (htwo.trans hone)) fun _ =>
    .raise (by decide)

theorem readNumber_room {sign : Int} : Granted r (readNumber sign r) := by
  unfold readNumber
  dsimp only
  split
  · exact .raise (by decide)
  · rename_i value any r' hdigits
    obtain ⟨digits, hrest, -, -, -, -⟩ := digits_of_readDigits rfl hdigits
    have hle : r'.rest.length ≤ r.rest.length := by
      rw [hrest, List.length_append]
      omega
    apply Granted.ite (fun _ => .raise (by decide)) fun _ => .ite (fun _ => .raise (by decide)) fun _ => ?_
    have hmake : ∀ x, Granted r (if x < mFixMin || x > mFixMax then
        raise r.line r.column (ascii "integer literal exceeds 60-bit fixnum range") .errOverflow
      else do
        let v ← makeFix x
        pure ((v, r') : Val × Reader)) := fun x =>
      .ite (fun _ => .raise (by decide)) fun _ s hs => wp_bind (makeFix_wp trivial (wp_pure ⟨hle, hs.mono hle⟩))
    apply Triple.ite
    · exact fun _ s hs => wp_bind (int64Op_wp trivial False.elim (hmake _ s hs))
    · exact fun _ s hs => wp_bind (wp_pure (hmake _ s hs))

theorem length_advanceWhile_lt {p : UInt8 → Bool} {b : UInt8} (hpeek : r.peek = some b) (hb : p b = true) :
    (advanceWhile p r.rest r).rest.length < r.rest.length := by
  obtain ⟨bs, hr⟩ := rest_of_peek hpeek
  rw [rest_advanceWhile, hr, List.dropWhile_cons, if_pos hb]
  exact Nat.lt_succ_of_le (List.dropWhile_sublist _).length_le

variable (hc : ∀ n size, c.alloc n size = true)
include hc

theorem readStringLoop_room {l k : Nat} (n : Nat) (r : Reader) (buf : Bytes) (cap : Nat) (hcap : cap ≠ 0) :
    Granted r (readStringLoop c l k n r buf cap) := by
  induction n generalizing r buf cap with
  | zero => exact Triple.timeout fun _ _ => id
  | succ n ih =>
    unfold readStringLoop
    split
    · exact .raise (by decide)
    · have hone := advance_length_le (r := r)
      have hgrow : ∀ x : UInt8 × Reader, Granted x.2 (do
          let cap ← if buf.length = cap then do
              rawAllocOrFail c (cap * 2)
              pure (cap * 2)
            else
              pure cap
          readStringLoop c l k n x.2 (buf ++ [x.1]) cap) := by
        intro x
        apply Triple.ite
        · intro _
          have hcap' : cap * 2 ≠ 0 := by omega
          exact (rawAllocOrFail_room hc hcap').seq fun _ s hs => wp_bind (wp_pure (ih _ _ _ hcap' s hs))
        · exact fun _ s hs => wp_bind (wp_pure (ih _ _ _ hcap s hs))
      apply Granted.ite (fun _ => .pure hone) fun _ => ?_
      apply Granted.ite
      · exact fun _ => (readEscape_room.from hone).bind fun x _ => hgrow x
      · exact fun _ s hs => wp_bind (wp_pure ((hgrow (_, r.advance)).from hone s hs))

omit hc in
theorem skip_starts {b : UInt8} (h : (skipWsAndComments r).peek = some b) : isWhitespace b = false ∧ b ≠ ch ';' := by
  rcases skip_cases r with ⟨lay, b', bs, heq, -, hstarts, hskip⟩ | ⟨-, hskip⟩
  · rw [hskip, peek, rest_eat heq] at h
    exact hstarts b h
  · rw [hskip, peek, rest_eat (List.append_nil _).symm] at h
    cases h

theorem readSymbol_room {b : UInt8} (hpeek : r.peek = some b) (hb : isTerminator (some b) = false) :
    Granted r (readSymbol c r) := by
  have hlt := length_advanceWhile_lt (p := fun b => !isTerminator (some b)) hpeek (by simp [hb])
  intro s hs
  apply wp_seq (mlSymIntern_room hc s (hs.mono (Nat.succ_le_of_lt hlt)))
  exact fun v t ht => wp_pure ⟨Nat.le_of_lt hlt, ht⟩

variable (hd : ∀ s, c.collectDue s = false)
include hd

theorem readString_room : Granted r (readString c r) := by
  have hone := advance_length_le (r := r)
  apply (rawAllocOrFail_room hc (by decide)).seq fun _ => ?_
  apply Granted.bind ((readStringLoop_room hc _ _ _ _ (by decide)).from hone)
  intro x _
  have hout : ∀ v : Val, Granted x.2 (pure (v, x.2) : ML (Val × Reader)) := fun v => .pure (Nat.le_refl _)
  exact (gcAlloc_room hc hd (by omega)).seq hout

end Tokens

/-! ## Forms -/

section Forms
variable {c : Config} {α β : Type} {r : Reader} {n : Nat} {E : Status → State → Prop} {m : Reader → ML (Val × Reader)}

theorem Granted.onErr {m : ML (α × Reader)} {k : Nat} (h : Granted r m) : Granted r (m.onErr (mlGcRestore k)) :=
  Triple.onErr h

theorem setCdr_table {P : Symtab → Prop} {v d : Val} :
    Triple (Mode.noting fun _ => True) (fun s => P s.symtab) (setCdr v d) (fun _ s => P s.symtab) E := by
  intro s hs
  apply wp_bind (wp_mono (asObj_wp False.elim) _ fun _ _ h => h)
  rintro o _ ⟨rfl, -⟩
  split
  · apply wp_mono (writeObj_wp False.elim fun _ _ => trivial) _ fun _ _ h => h
    rintro _ t ⟨_, -, rfl⟩
    exact hs
  · exact wp_stuck id

theorem setCdr_room {v d : Val} :
    Triple (Mode.noting fun _ => True) (State.Room n) (setCdr v d) (fun _ => State.Room n) E :=
  setCdr_table (P := fun t => t.entries.length + n ≤ 0x10000000)

variable (hc : ∀ n size, c.alloc n size = true) (hd : ∀ s, c.collectDue s = false) (hm : ∀ r, Granted r (m r))
include hc hd hm

theorem readListLoop_room (sp : Nat) (head : Val) (n : Nat) (tail : Val) (r : Reader) :
    Triple (Mode.noting fun _ => True) (State.Room r.rest.length) (readListLoop c m sp head n tail r)
      (fun r' s => r'.rest.length ≤ r.rest.length ∧ s.Room r'.rest.length) (fun e _ => e ≠ .errNomem) := by
  have hback : ∀ {β : Type} {r : Reader} {Q : β → State → Prop} {l k : Nat} {message : Bytes} {e : Status},
      e ≠ .errNomem →
      Triple (Mode.noting fun _ => True) (State.Room r.rest.length)
        ((raise l k message e : ML β).onErr (mlGcRestore sp)) Q (fun e _ => e ≠ .errNomem) :=
    fun he => Triple.onErr (raise_room he)
  induction n generalizing tail r with
  | zero => exact Triple.timeout fun _ _ => id
  | succ n ih =>
    have hskip := (past_skip r).length_le
    have hone := advance_length_le (r := skipWsAndComments r)
    unfold readListLoop
    dsimp only
    split
    · exact hback (by decide)
    · apply Triple.ite (fun _ => .pure fun _ hs => ⟨hone.trans hskip, hs.mono (hone.trans hskip)⟩) fun _ => ?_
      apply Triple.ite
      · intro _
        apply Triple.ite (fun _ => hback (by decide)) fun _ => ?_
        apply Triple.bind ((hm _).onErr.from (hone.trans hskip))
        rintro x s ⟨hle, hs⟩
        have hskip' := (past_skip x.2).length_le
        have hone' := advance_length_le (r := skipWsAndComments x.2)
        apply wp_seq (setCdr_room s hs)
        intro _ t ht
        apply wp_ite (fun _ => hback (by decide) t ht) fun _ => ?_
        exact wp_pure ⟨(hone'.trans hskip').trans hle, ht.mono (hone'.trans hskip')⟩
      · intro _
        apply Triple.bind ((hm _).onErr.from hskip)
        rintro x s ⟨hle, hs⟩
        apply wp_seq (wp_onErr (mlGcProtect_room hc s hs))
        intro _ t ht
        have hcell : wp (Mode.noting fun _ => True) ((mlGcAllocPair c x.1 mvNil).andThen (mlGcUnprotect 1)) t
            (fun _ u => u.Room x.2.rest.length) (fun e _ => e ≠ .errNomem) :=
              wp_andThen (gcAlloc_room hc hd (by decide) t ht)
        apply wp_seq (wp_onErr hcell)
        intro cell u hu
        apply wp_seq (setCdr_room u hu)
        intro _ w hw
        exact wp_mono (ih cell x.2 w hw) (fun _ _ hx => ⟨hx.1.trans hle, hx.2⟩) fun _ _ h => h

theorem readList_room (r : Reader) : Granted r (readList c m r) := by
  have hskip := (past_skip { r with depth := r.depth + 1 }).length_le
  have hone := advance_length_le (r := skipWsAndComments { r with depth := r.depth + 1 })
  apply Granted.ite (fun _ => .raise (by decide)) fun _ => ?_
  apply Granted.ite (fun _ => .pure (hone.trans hskip)) fun _ s hs => ?_
  apply wp_bind (wp_gets _)
  apply wp_seq (gcAlloc_room hc hd (by decide) s hs)
  intro head t ht
  apply wp_seq (mlGcProtect_room hc t ht)
  intro _ u hu
  apply wp_seq (readListLoop_room hc hd hm _ _ _ _ _ u (hu.mono hskip))
  rintro r' w ⟨hle, hw⟩
  apply wp_seq (cdr_reads.triple w hw)
  intro out w' hw'
  exact wp_bind (wp_modify (wp_pure ⟨hle.trans hskip, hw'⟩))

theorem readQuote_room (r : Reader) : Granted r (readQuote c m r) := by
  apply Triple.bind ((hm _).from advance_length_le)
  rintro x s ⟨hle, hs⟩
  dsimp only
  apply wp_ite (fun _ => raise_room (by decide) s hs) fun _ => ?_
  apply wp_bind (wp_gets _)
  apply wp_seq (mlGcProtect_room hc s hs)
  intro _ t ht
  apply wp_seq (wp_onErr (gcAlloc_room hc hd (by decide) t ht))
  intro inner u hu
  apply wp_bind (wp_modify _)
  have hpop : (mlGcUnprotect 1 u).Room x.2.rest.length := hu
  apply wp_seq (mlGcProtect_room hc _ hpop)
  intro _ w hw
  have hout : wp (Mode.noting fun _ => True)
      ((mlGcAllocPair c c.symQuote inner).andThen (mlGcRestore s.gcProtect.length)) w
      (fun _ u => u.Room x.2.rest.length) (fun e _ => e ≠ .errNomem) := wp_andThen (gcAlloc_room hc hd (by decide) w hw)
  apply wp_seq hout
  exact fun _ _ h => wp_pure ⟨hle, h⟩

omit hm in
theorem readForm_room (n : Nat) (r : Reader) : Granted r (readForm c n r) := by
  induction n generalizing r with
  | zero => exact Triple.timeout fun _ _ => id
  | succ n ih =>
    have hskip := (past_skip r).length_le
    unfold readForm
    dsimp only
    split
    · exact .pure hskip
    · rename_i b hpeek
      have hone := advance_length_le (r := skipWsAndComments r)
      apply Granted.ite (fun _ => (readList_room hc hd ih _).from (hone.trans hskip)) fun hopen => ?_
      apply Granted.ite (fun _ => .raise (by decide)) fun hclose => ?_
      apply Granted.ite (fun _ => (readQuote_room hc hd ih _).from hskip) fun hquote => ?_
      apply Granted.ite (fun _ => (readString_room hc hd).from hskip) fun hstring => ?_
      apply Granted.ite (fun _ => readHash_room.from hskip) fun _ => ?_
      apply Granted.ite (fun _ => readNumber_room.from hskip) fun _ => ?_
      have hsymbol : Granted r (readSymbol c (skipWsAndComments r)) := by
        have hb := skip_starts hpeek
        have hterm : isTerminator (some b) = false := by
          simp [isTerminator, hb.1, hb.2, hopen, hclose, hquote, hstring]
        exact (readSymbol_room hc hpeek hterm).from hskip
      apply Granted.ite
      · intro _
        exact .ite (fun _ => readNumber_room.from (hone.trans hskip)) fun _ => hsymbol
      · exact fun _ => hsymbol

omit hm in
theorem mlRead_room (r : Reader) : Granted r (mlRead c r) := readForm_room hc hd _ r

end Forms

/-- A read with an allocator that grants every request, and room in the table, does not run
out of memory. -/
theorem mlRead_granted {c : Config} (hc : ∀ n size, c.alloc n size = true) {s : State} (hs : s.Ready c) {r : Reader}
    (hroom : s.Room r.rest.length) : (mlRead c r s).res ≠ .error (.err .errNomem) := by
  rw [(mlRead_collections c hc s hs r).1]
  intro hres
  have hk := (mlRead_room (c := c.withoutCollections) hc (fun _ => rfl) r s hroom fun _ _ => id).2
  rw [hres] at hk
  exact hk rfl

end Microlisp
