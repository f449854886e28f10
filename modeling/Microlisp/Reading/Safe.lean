import Microlisp.Reading.Form
/-!
# A read that fails

A read that fails half way leaves behind what it has made so far. None of it dangles: the
state is well-formed, so the next call finds it in order.
-/
namespace Microlisp

open Prog

/-- From `s` the reader does what `Q` says, or it fails and leaves a well-formed state. -/
abbrev Mends {α : Type} (c : Config) (s : State) (m : ML α) (Q : α → State → Prop) : Prop :=
  wp (readMode False) m s Q fun _ u => u.WellFormed c

/-- From every state in which a form can be read, `m` fails in order, if it fails. -/
def MendsAll (c : Config) (m : Reader → ML (Val × Reader)) : Prop := ∀ s r, s.Ready c → Mends c s (m r) fun _ _ => True

section Mends
variable {c : Config} {s t u : State} {l : List Val} {v : Val} {o : Obj} {r : Reader} {α : Type} {Q : α → State → Prop}

/-- How a step fails is known apart from what it does where it succeeds. -/
theorem Mends.of_wp {m : ML α} {E : Status → State → Prop} (h : wp (readMode False) m s Q E)
    (hfail : wp (Mode.noting fun _ => True) m s (fun _ _ => True) fun _ u => u.WellFormed c) : Mends c s m Q :=
  wp_mono (wp_and hfail h) (fun _ _ h => h.2) fun _ _ h => h.1

theorem mends_raise {line column : Nat} {message : Bytes} {e : Status} (hs : s.WellFormed c) :
    Mends c s (raise line column message e : ML α) Q := raise_safe hs

theorem Mends.weaken {m : ML α} (h : Mends c s m Q) : wp (Mode.noting fun _ => True) m s (fun _ _ => True)
    fun _ u => u.WellFormed c :=
  wp_weaken (wp_mono h (fun _ _ _ => trivial) fun _ _ h => h) (fun _ => id) (fun _ _ => trivial) False.elim False.elim

/-- What the reader does where it succeeds is known from the parser. -/
theorem Mends.refine {β : Type} {rel : State → State → β → α → Prop} {m : ML (α × Reader)} {p : Parse (β × Reader)}
    (hm : Mends c s m fun _ _ => True) (h : Refines c False rel s m p) :
    Mends c s m fun x t => s.Reads c [] t ∧ ∃ y, p = .ok (y, x.2) ∧ rel s t y x.1 := .of_wp (h fun _ => id) hm.weaken

theorem Mends.restore {m : ML α} {n : Nat} (h : Mends c s m Q) : Mends c s (m.onErr (mlGcRestore n)) Q :=
  onErr_restore_safe h

/-! ## Memory -/

theorem rawAllocOrFail_mends {size : Nat} (hs : s.Ready c) :
    Mends c s (rawAllocOrFail c size) fun _ u => s.Reads c [] u ∧ u.heap = s.heap ∧ u.symtab = s.symtab :=
  .of_wp (rawAllocOrFail_reads hs) (wp_mono (rawAllocOrFail_safe hs.wf) (fun _ _ _ => trivial) fun _ _ h => h)

theorem mlGcProtect_mends (hs : s.Ready c) (hv : s.heap.ValOk v) :
    Mends c s (mlGcProtect c v) fun _ u => s.Reads c [v] u ∧ u.heap = s.heap ∧ u.symtab = s.symtab :=
  .of_wp (mlGcProtect_reads hs hv) (wp_mono (mlGcProtect_safe hs.wf (.inl hv)) (fun _ _ _ => trivial) fun _ _ h => h)

theorem gcAlloc_fails {size : Nat} (hs : s.Ready c) : Mends c s (gcAlloc c size o) fun _ _ => True := by
  apply wp_seq (maybeCollect_reads hs)
  rintro _ t ⟨ht, -⟩
  apply wp_seq (rawAllocOrFail_safe ht.good.wf)
  intro _ u _
  apply wp_mono (linkObject_wp (E := fun _ _ => False) trivial)
  · exact fun _ _ _ => trivial
  · exact fun _ _ h => h.elim

/-- A new pair or string. -/
theorem gcAlloc_mends {size : Nat} (hs : s.Ready c) (hok : s.heap.ObjOk o) (hdata : o.isData = true)
    (hrefs : ∀ v ∈ o.refs, v.In (s.Kept c)) :
    Mends c s (gcAlloc c size o) fun v u => s.Reads c [] u ∧ v = .obj s.heap.next ∧ u.heap.get s.heap.next = some o ∧
      u.heap.next = s.heap.next + 1 := .of_wp (gcAlloc_reads hs hok hdata hrefs) (gcAlloc_fails hs).weaken

theorem mlSymIntern_mends {name : Bytes} (hs : s.WellFormed c) : Mends c s (mlSymIntern c name) fun _ _ => True := by
  apply wp_mono mlSymIntern_adds (fun _ _ _ => trivial)
  rintro e u ⟨-, hu⟩
  rw [hu]
  exact hs.of_eq rfl (fun _ h => h) fun _ h => h

/-! ## Tokens -/

theorem readEscape_mends {line k : Nat} (hs : s.WellFormed c) : Mends c s (readEscape line k r) fun _ u => u = s := by
  unfold readEscape
  cases r.peek with
  | none => exact mends_raise hs
  | some esc =>
    dsimp only
    iterate 6
      split
      · exact wp_pure rfl
    split
    · cases r.advance.peek.bind hexDigit with
      | none => exact mends_raise hs
      | some h1 =>
        cases r.advance.advance.peek.bind hexDigit with
        | none => exact mends_raise hs
        | some h2 => exact wp_pure rfl
    · exact mends_raise hs

theorem readStringLoop_mends {line k : Nat} (hs : s.Ready c) (n : Nat) (r : Reader) (buf : Bytes) (cap : Nat) :
    Mends c s (readStringLoop c line k n r buf cap) fun _ u => s.Reads c [] u := by
  induction n generalizing s r buf cap with
  | zero => exact wp_timeout id
  | succ n ih =>
    unfold readStringLoop
    cases r.peek with
    | none => exact mends_raise hs.wf
    | some b =>
      dsimp only
      have hpush : ∀ x : UInt8 × Reader, Mends c s (do
          let cap ← if buf.length = cap then do
              rawAllocOrFail c (cap * 2)
              pure (cap * 2)
            else
              pure cap
          readStringLoop c line k n x.2 (buf ++ [x.1]) cap) fun _ u => s.Reads c [] u := by
        intro x
        apply wp_ite
        · intro _
          apply wp_seq (rawAllocOrFail_mends hs)
          rintro _ t ⟨ht, -⟩
          apply wp_bind
          apply wp_pure
          exact wp_mono (ih (ht.ready hs) _ _ _) (fun _ _ h => ht.seq h) fun _ _ h => h
        · exact fun _ => wp_bind (wp_pure (ih hs _ _ _))
      apply wp_ite
      · exact fun _ => wp_pure (.refl hs)
      intro _
      apply wp_ite
      · intro _
        apply wp_seq (readEscape_mends hs.wf)
        rintro x _ rfl
        exact hpush x
      · exact fun _ => wp_bind (wp_pure (hpush _))

theorem readString_mends : MendsAll c (readString c) := by
  intro s r hs
  apply wp_seq (rawAllocOrFail_mends hs)
  rintro _ t ⟨ht, -⟩
  apply wp_seq (readStringLoop_mends (ht.ready hs) _ _ _ _)
  intro x u hu
  apply wp_seq (gcAlloc_fails (hu.ready (ht.ready hs)))
  exact fun _ _ _ => wp_pure trivial

theorem readHash_mends : MendsAll c readHash := by
  intro s r hs
  apply wp_ite (fun _ => wp_pure trivial)
  intro _
  exact wp_ite (fun _ => wp_pure trivial) fun _ => mends_raise hs.wf

theorem readNumber_mends {sign : Int} : MendsAll c (readNumber sign) := by
  intro s r hs
  apply Mends.of_wp (E := fun _ _ => True) (Q := fun _ _ => True)
  · apply wp_mono (readNumber_refines (P := False) hs fun _ => id)
    · exact fun _ _ _ => trivial
    · exact fun _ _ _ => trivial
  · unfold readNumber
    rcases readDigits r.rest r 0 false with ⟨none | value, any, r'⟩
    · exact raise_safe hs.wf
    dsimp only
    have hmake : ∀ x : Int, wp (Mode.noting fun _ => True) (if x < mFixMin || x > mFixMax then
          raise r.line r.column (ascii "integer literal exceeds 60-bit fixnum range") .errOverflow
        else do
          let v ← makeFix x
          pure (v, r') : ML (Val × Reader)) s (fun _ _ => True) fun _ u => u.WellFormed c := by
      intro x
      apply wp_ite (fun _ => raise_safe hs.wf)
      exact fun _ => wp_bind (makeFix_wp trivial (wp_pure trivial))
    apply wp_ite (fun _ => raise_safe hs.wf)
    intro _
    apply wp_ite (fun _ => raise_safe hs.wf)
    intro _
    apply wp_ite
    · exact fun _ => wp_bind (int64Op_wp trivial (fun h => h.elim) (hmake _))
    · exact fun _ => wp_bind (wp_pure (hmake _))

theorem readSymbol_mends : MendsAll c (readSymbol c) := by
  intro s r hs
  apply wp_seq (mlSymIntern_mends hs.wf)
  exact fun _ _ _ => wp_pure trivial

end Mends

/-! ## Lists and quotes -/

section Nested
variable {c : Config} {s : State} {m : Reader → ML (Val × Reader)} {pf : Reader → Parse (Option Datum × Reader)}
  (hmends : MendsAll c m) (hform : ∀ u r, u.Ready c → Refines c False State.NewForm u (m r) (pf r))
  (hend : ∀ r r', pf r = .ok (none, r') → r' = skipWsAndComments r ∧ r'.peek = none)

include hmends hform

include hend in
theorem readListLoop_mends (hs : s.Ready c) {a : Nat} (sp n : Nat) {elems : List Datum} {t : Nat}
    {u : State} (r : Reader)
    (hu : s.Builds c a elems t u) : Mends c u (readListLoop c m sp (.obj a) n (.obj t) r) fun _ _ => True := by
  induction n generalizing elems t u r with
  | zero => exact wp_timeout id
  | succ n ih =>
    have hready := hu.reads.ready hs
    simp only [readListLoop]
    cases hpeek : (skipWsAndComments r).peek with
    | none => exact Mends.restore (mends_raise hready.wf)
    | some b =>
      dsimp only
      apply wp_ite (fun _ => wp_pure trivial)
      intro _
      apply wp_ite
      · intro _
        apply wp_ite (fun _ => Mends.restore (mends_raise hready.wf))
        intro _
        apply wp_seq (Mends.restore ((hmends _ _ hready).refine (hform _ _ hready)))
        rintro ⟨v, r₁⟩ u₁ ⟨hu₁, y, -, hy⟩
        have hb := hu.seq hu₁
        obtain ⟨z, hz⟩ := hb.last
        have hok : u₁.heap.ValOk v := by
          cases y with
          | none =>
            obtain rfl : v = mvEof := hy
            trivial
          | some d => exact (show u.New u₁ d v from hy).valOk
        apply wp_seq (setCdr_reads hs hb.reads hb.new hz hok)
        rintro _ w ⟨hw, -⟩
        exact wp_ite (fun _ => Mends.restore (mends_raise hw.good.wf)) fun _ => wp_pure trivial
      · intro _
        apply wp_seq (Mends.restore ((hmends _ _ hready).refine (hform _ _ hready)))
        rintro ⟨v, r₁⟩ u₁ ⟨hu₁, y, hp, hy⟩
        have hb := hu.seq hu₁
        have hready₁ := hb.reads.ready hs
        cases y with
        | none =>
          -- there is a byte to read
          obtain ⟨heq, hpeek₁⟩ := hend _ _ hp
          dsimp only at heq hpeek₁
          rw [heq, skip_skip, hpeek] at hpeek₁
          cases hpeek₁
        | some d =>
          have hshow : u.New u₁ d v := hy
          have hlt := hu.lt_next
          apply wp_seq (Mends.restore (mlGcProtect_mends hready₁ hshow.valOk))
          rintro _ u₂ ⟨hu₂, hheap, htable⟩
          have hshow' : u₁.Shows (fun k => t < k ∧ k < u₁.heap.next) d v := hshow.mono fun k hk => ⟨by omega, hk.2⟩
          have hcell : Mends c u₂ ((mlGcAllocPair c v mvNil).andThen (mlGcUnprotect 1)) fun _ _ => True := by
            apply wp_andThen
            exact wp_mono (gcAlloc_fails (hu₂.ready hready₁)) (fun _ _ h => h) fun _ _ h => h.unprotect 1
          apply wp_seq (Mends.restore (.of_wp (hb.newCell hs hshow' hu₂ hheap htable) hcell.weaken))
          rintro _ u₃ ⟨hb₃, rfl, hy, hshow₃⟩
          apply wp_seq (hb₃.snoc hs (Nat.lt_of_lt_of_le hlt hu₁.next_le) hy hshow₃)
          exact fun _ w hw => ih _ hw

include hend in
theorem readList_mends : MendsAll c (readList c m) := by
  intro s r hs
  apply wp_ite (fun _ => mends_raise hs.wf)
  intro _
  apply wp_ite (fun _ => wp_pure trivial)
  intro _
  apply wp_bind
  apply wp_gets
  have hok : s.heap.ObjOk (.pair mvNil mvNil) := ⟨trivial, trivial⟩
  have hrefs : ∀ w ∈ (Obj.pair mvNil mvNil).refs, w.In (s.Kept c) := by
    intro w hw
    rcases List.mem_pair.1 hw with rfl | rfl <;> exact nofun
  apply wp_seq (gcAlloc_mends hs hok rfl hrefs)
  rintro _ u ⟨hu, rfl, hget, -⟩
  have hval : u.heap.ValOk (.obj s.heap.next) := ⟨_, hget, rfl⟩
  apply wp_seq (mlGcProtect_mends (hu.ready hs) hval)
  rintro _ w ⟨hw, hheap, -⟩
  have hbuilds : s.Builds c s.heap.next [] s.heap.next w :=
    ⟨hu.trans hw, Nat.le_refl _, .head, mvNil, by rw [hheap, hget]⟩
  apply wp_seq (Mends.of_wp (readListLoop_refines (P := False) hform hend hs s.gcProtect.length _ _ hbuilds fun _ => id)
    (readListLoop_mends hmends hform hend hs _ _ _ hbuilds).weaken)
  rintro r₁ t ⟨ht, d, -, x, y, hx, -⟩
  apply wp_seq (cdr_wp fun _ => ⟨x, y, _, rfl, hx⟩)
  intro _ _ _
  exact wp_bind (wp_modify (wp_pure trivial))

theorem readQuote_mends : MendsAll c (readQuote c m) := by
  intro s r hs
  apply wp_seq ((hmends _ _ hs).refine (hform _ _ hs))
  rintro ⟨v, r₁⟩ u ⟨hu, y, -, hy⟩
  have hready := hu.ready hs
  apply wp_ite (fun _ => mends_raise hready.wf)
  intro heof
  cases y with
  | none => exact absurd hy heof
  | some d =>
    have hshow : s.New u d v := hy
    apply wp_bind
    apply wp_gets
    apply wp_seq (mlGcProtect_mends hready hshow.valOk)
    rintro _ u₁ ⟨hu₁, hheap, -⟩
    have hval : u₁.heap.ValOk v := by
      rw [hheap]
      exact hshow.valOk
    have hrefs : ∀ w ∈ (Obj.pair v mvNil).refs, w.In (u₁.Kept c) := by
      intro w hw
      rcases List.mem_pair.1 hw with rfl | rfl
      · exact hu₁.good.pushed (List.mem_singleton.2 rfl)
      · exact nofun
    have hok : u₁.heap.ObjOk (.pair v mvNil) := ⟨hval, trivial⟩
    apply wp_seq (Mends.restore (gcAlloc_mends (hu₁.ready hready) hok rfl hrefs))
    rintro _ u₂ ⟨hu₂, rfl, hget₂, -⟩
    have hreads₂ : u.Reads c [] (mlGcUnprotect 1 u₂) := (hu₁.seq hu₂).unprotect (l := []) (r := [v])
    apply wp_bind
    apply wp_modify
    have hval₂ : (mlGcUnprotect 1 u₂).heap.ValOk (.obj u₁.heap.next) := ⟨_, hget₂, rfl⟩
    apply wp_seq (mlGcProtect_mends (hreads₂.ready hready) hval₂)
    rintro _ u₃ ⟨hu₃, -⟩
    have hout : Mends c u₃ (gcAlloc c 32 (.pair c.symQuote (.obj u₁.heap.next))) fun _ _ => True :=
      gcAlloc_fails (hu₃.ready (hreads₂.ready hready))
    apply wp_bind
    apply wp_andThen
    apply wp_mono hout
    · exact fun _ _ _ => wp_pure trivial
    · exact fun _ _ h => h.restore _

end Nested

/-! ## Forms -/

section Form
variable {c : Config} {s : State}

theorem readForm_mends (n : Nat) : MendsAll c (readForm c n) := by
  induction n with
  | zero => exact fun _ _ _ => wp_timeout id
  | succ n ih =>
    have hform : ∀ u r, u.Ready c → Refines c False State.NewForm u (readForm c n r) (parseForm c.maxReadDepth n r) :=
      fun _ _ hu => readForm_refines _ _ hu
    intro s r hs
    simp only [readForm]
    cases (skipWsAndComments r).peek with
    | none => exact wp_pure trivial
    | some b =>
      apply wp_ite (fun _ => readList_mends ih hform (fun _ _ => parseForm_none) _ _ hs)
      intro _
      apply wp_ite (fun _ => mends_raise hs.wf)
      intro _
      apply wp_ite (fun _ => readQuote_mends ih hform _ _ hs)
      intro _
      apply wp_ite (fun _ => readString_mends _ _ hs)
      intro _
      apply wp_ite (fun _ => readHash_mends _ _ hs)
      intro _
      apply wp_ite (fun _ => readNumber_mends _ _ hs)
      intro _
      apply wp_ite
      · exact fun _ => wp_ite (fun _ => readNumber_mends _ _ hs) fun _ => readSymbol_mends _ _ hs
      · exact fun _ => readSymbol_mends _ _ hs

/-- From a state between two evaluations, a read ends in one in which the next can follow. -/
theorem mlRead_mends (r : Reader) (hs : s.Ready c) :
    Mends c s (mlRead c r) fun x t => s.Reads c [] t ∧ ∃ y, parse c.maxReadDepth r = .ok (y, x.2) ∧ s.NewForm t y x.1 :=
  (readForm_mends _ _ _ hs).refine (mlRead_refines hs r)

end Form
end Microlisp
