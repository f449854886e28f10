import Microlisp.Tidy.Primitives
/-!
# Reading keeps a heap tidy

The reader overwrites the `cdr` of a cell that it has made, so an edge appears between two
old vertices. The new edge leads to something made later than the cell, and what was made
later holds no handle of what was made before: no cycle closes.
-/
namespace Microlisp

open Prog

/-! ## Numbers -/

/-- An `int64_t` that digits can add up to. -/
def Digits (x : Int) : Prop := 0 ≤ x ∧ x ≤ int64Max

theorem digits_of_checked {x y : Int} (hx : 0 ≤ x) (h : int64Checked x = some y) : Digits y := by
  unfold int64Checked at h
  split at h
  · rename_i hfits
    cases h
    exact ⟨hx, hfits.2⟩
  · cases h

theorem readDigits_digits {bs : Bytes} {r r' : Reader} {value x : Int} {any any' : Bool} (hvalue : Digits value)
    (h : readDigits bs r value any = (some x, any', r')) : Digits x := by
  induction bs generalizing r value any with
  | nil =>
    cases h
    exact hvalue
  | cons b bs ih =>
    simp only [readDigits] at h
    split at h
    · split at h
      · cases h
      · rename_i added hadded
        obtain ⟨multiplied, hmul, hadd⟩ := Option.bind_eq_some_iff.1 hadded
        have hten : Digits multiplied := digits_of_checked (by have := hvalue.1; omega) hmul
        exact ih (digits_of_checked (by have := hten.1; omega) hadd) h
    · cases h
      exact hvalue

section Reader
variable {c : Config} {b : Nat} {vs : List Val} {r : Reader}

theorem readNumber_wp {M : Mode Event} (hM : Counts M) {s : State} {sign : Int} :
    wp M (readNumber sign r) s (fun x t => PlainResult s x.1 t) (OnlyError s) := by
  unfold readNumber
  dsimp only
  split
  · exact raise_only
  · rename_i value any r' hdigits
    have hvalue : Digits value := readDigits_digits ⟨by decide, by decide⟩ hdigits
    apply wp_ite fun _ => raise_only
    intro _
    apply wp_ite fun _ => raise_only
    intro _
    have hmake : ∀ x, wp M (if x < mFixMin || x > mFixMax then
        raise r.line r.column (ascii "integer literal exceeds 60-bit fixnum range") .errOverflow
      else do
        let v ← makeFix x
        pure ((v, r') : Val × Reader)) s (fun x t => PlainResult s x.1 t) (OnlyError s) := by
      intro x
      apply wp_ite fun _ => raise_only
      intro hx
      have hfits : fitsFixnum x = true := by
        simp only [Bool.or_eq_true, decide_eq_true_iff, not_or, Int.not_lt] at hx
        simp only [mFixMin, mFixMax] at hx
        exact fits_iff.2 (by omega)
      apply wp_seq (makeFix_fits hM hfits)
      exact fun v t ht => wp_pure ht
    apply wp_ite
    · intro _
      have hneg : int64Min ≤ -value ∧ -value ≤ int64Max := by
        obtain ⟨hlo, hhi⟩ := hvalue
        simp only [int64Min, int64Max] at hhi ⊢
        omega
      exact wp_bind (int64Op_fits hM hneg (hmake _))
    · exact fun _ => wp_bind (wp_pure (hmake _))

theorem readNumber_tidy {sign : Int} : Tidies c b vs (readNumber sign r) fun x => [x.1] := by
  intro s hs
  apply wp_mono (readNumber_wp counts_tidy)
  · rintro x t ⟨rfl, hx⟩
    exact hs.add (fun w hw => by rw [List.mem_singleton.1 hw]; exact hx.fit)
      (fun w hw => by rw [List.mem_singleton.1 hw]; exact hs.known_since hx.known)
  · intro e t ht
    rw [ht]
    exact hs.toTidy.of_eq rfl fun _ hv => hv

/-! ## Strings, symbols and hash forms -/

theorem tidy_read {v : Val} (hv : v.Known vs) : Tidies c b vs (pure (v, r) : ML (Val × Reader)) fun x => [x.1] :=
  .pure fun w hw => by rw [List.mem_singleton.1 hw]; exact hv

theorem readEscape_tidy {l k : Nat} : Tidies c b vs (readEscape l k r) fun _ => [] := by
  unfold readEscape
  split
  · exact .raise
  · refine .ite .none (.ite .none (.ite .none (.ite .none (.ite .none (.ite .none (.ite ?_ .raise))))))
    dsimp only
    split
    · exact .none
    · exact .raise

theorem readStringLoop_tidy {l k : Nat} (n : Nat) (r : Reader) (buf : Bytes) (cap : Nat) :
    Tidies c b vs (readStringLoop c l k n r buf cap) fun _ => [] := by
  induction n generalizing r buf cap with
  | zero => exact .timeout
  | succ n ih =>
    unfold readStringLoop
    split
    · exact .raise
    · have hgrow : ∀ x : UInt8 × Reader, Tidies c b vs (do
          let cap ← if buf.length = cap then do
              rawAllocOrFail c (cap * 2)
              pure (cap * 2)
            else
              pure cap
          readStringLoop c l k n x.2 (buf ++ [x.1]) cap) fun _ => [] := fun x =>
        .ite (.seq .rawAllocOrFail fun _ => .seq .none fun _ => ih _ _ _) (.seq .none fun _ => ih _ _ _)
      exact .ite .none (.ite (.seq readEscape_tidy hgrow) (.seq .none hgrow))

theorem readString_tidy : Tidies c b vs (readString c r) fun x => [x.1] := by
  apply Tidies.rawAllocOrFail.seq
  intro _
  apply (readStringLoop_tidy _ _ _ _).seq
  intro x
  have halloc : Tidies c b vs (mlGcAllocString c x.1) fun v => [v] := .gcAlloc (by simp [Obj.refs])
  exact halloc.bind fun v => tidy_read .top

theorem readHash_tidy : Tidies c b vs (readHash r) fun x => [x.1] :=
  .ite (tidy_read plain_imm.known) (.ite (tidy_read plain_imm.known) .raise)

theorem readSymbol_tidy : Tidies c b vs (readSymbol c r) fun x => [x.1] :=
  .bind mlSymIntern_tidy fun _ => tidy_read .top

/-! ## Cells -/

/-- What holds of a step for two sets of values holds for both at once. -/
theorem Tidies.both {α : Type} {m : ML α} {out : α → List Val} {b' : Nat} {ws : List Val} (h : Tidies c b vs m out)
    (h' : Tidies c b' ws m out) :
    Triple tidyMode (fun s => s.Ctx c b vs ∧ s.Ctx c b' ws) m
      (fun a s => s.Ctx c b (out a ++ vs) ∧ s.Ctx c b' (out a ++ ws)) (fun _ t => t.Tidy c) :=
  fun s hs => wp_mono (wp_and (h s hs.1) (h' s hs.2)) (fun _ _ h => h) fun _ _ h => h.1

/-- The `cdr` of a cell of the region. -/
theorem cdr_since {v : Val} (hv : v.Known vs) : Tidies c b vs (cdr v) fun d => [d] := by
  intro s hs
  apply wp_mono (cdr_wp False.elim) _ fun _ _ h => h
  rintro d t ⟨rfl, a, x, rfl, hx⟩
  apply hs.add
  · intro w hw
    rw [List.mem_singleton.1 hw]
    exact hs.heap.fit x _ hx d (by simp [Obj.refs])
  · intro w hw
    rw [List.mem_singleton.1 hw]
    exact (hs.closed x a d (hs.known_since hv) hx).2

/-- Overwriting the `cdr` of a cell made before `b'` by a value made at `b'` or later. -/
theorem State.Ctx.setCdr {s : State} {b' x : Nat} {a d₀ d : Val} (hs : s.Ctx c b vs)
    (hs' : s.Ctx c b' [d]) (hd : d ∈ vs)
    (hx : x < b') (ho : s.heap.get x = some (.pair a d₀)) :
    State.Ctx c b vs { s with heap := s.heap.set x (.pair a d) } := by
  have hget : ∀ y o, (s.heap.set x (.pair a d)).get y = some o →
      (y = x ∧ o = .pair a d) ∨ s.heap.get y = some o := by
    intro y o hy
    rw [Heap.get_set] at hy
    split at hy
    · rename_i hyx
      subst hyx
      rw [ho] at hy
      cases hy
      exact .inl ⟨rfl, rfl⟩
    · exact .inr hy
  have hfit : ∀ y o, (s.heap.set x (.pair a d)).get y = some o → ∀ v ∈ o.refs, v.Fit s.heap.next := by
    intro y o hy v hv
    rcases hget y o hy with ⟨rfl, rfl⟩ | hold
    · rcases List.mem_pair.1 hv with rfl | rfl
      · exact hs.heap.fit y _ ho v (by simp [Obj.refs])
      · exact hs.fits v hd
    · exact hs.heap.fit y o hold v hv
  have hranked : Ranked (s.heap.set x (.pair a d)).PairEdge := by
    -- the new edge leads out of the objects made before b', and none leads back
    apply hs.heap.ranked.join (P := fun y => y < b') (l := (Obj.pair a d).ptrs)
    · rintro y z ⟨u, w, hp, hz⟩ hzb
      by_contra hyb
      obtain ⟨v, hv, hptr⟩ := List.mem_filterMap.1 hz
      obtain ⟨rfl, -⟩ := Val.ptr_eq_some.1 hptr
      have hsince := hs'.closed y u w (Nat.le_of_not_lt hyb) hp
      rcases List.mem_pair.1 hv with rfl | rfl
      · exact absurd hzb (Nat.not_lt.2 hsince.1)
      · exact absurd hzb (Nat.not_lt.2 hsince.2)
    · rintro y z ⟨u, w, hp, hz⟩
      rcases hget y _ hp with ⟨rfl, heq⟩ | hold
      · cases heq
        obtain ⟨v, hv, hptr⟩ := List.mem_filterMap.1 hz
        rcases List.mem_pair.1 hv with rfl | rfl
        · exact .inl ⟨v, d₀, ho, List.mem_filterMap.2 ⟨v, by simp [Obj.refs], hptr⟩⟩
        · obtain ⟨rfl, -⟩ := Val.ptr_eq_some.1 hptr
          exact .inr ⟨hx, Nat.not_lt.2 (hs'.since _ List.mem_cons_self), hz⟩
      · exact .inl ⟨u, w, hold, hz⟩
  exact {
    heap := ⟨hfit, hranked⟩
    protect := hs.protect
    toplevel := hs.toplevel
    fits := hs.fits
    since := hs.since
    le := hs.le
    closed := by
      intro y u w hyb hp
      rcases hget y _ hp with ⟨rfl, heq⟩ | hold
      · cases heq
        exact ⟨(hs.closed y a d₀ hyb ho).1, hs.since d hd⟩
      · exact hs.closed y u w hyb hold }

theorem setCdr_tidy {b' x : Nat} {d : Val} (hd : d ∈ vs) (hx : x < b') :
    Triple tidyMode (fun s => s.Ctx c b vs ∧ s.Ctx c b' [d]) (setCdr (.obj x) d) (fun _ => State.Ctx c b vs)
      (fun _ t => t.Tidy c) := by
  rintro s ⟨hs, hs'⟩
  apply wp_seq (asObj_wp False.elim)
  rintro o t ⟨rfl, _, ⟨⟩, ho⟩
  cases o with
  | pair a d₀ =>
    have hset := hs.setCdr hs' hd hx ho
    apply wp_mono (writeObj_wp False.elim _) _ fun _ _ h => h
    · rintro _ ⟨⟩
      exact hset.heap
    · rintro _ u ⟨_, ⟨⟩, rfl⟩
      exact hset
  | _ => exact wp_stuck id

/-- Two values made at one point of a run: the second is as new as anything from there on. -/
theorem setCdr_new {α β : Type} {m : ML α} {out : α → List Val} {k : α → ML β} {res : β → List Val}
    {tail : Val} {d : α → Val}
    (htail : tail ∈ vs) (hd : ∀ x, d x ∈ out x) (hm : ∀ b vs, Tidies c b vs m out)
    (hk : ∀ x, Tidies c b (out x ++ vs) (k x) res) :
    Tidies c b vs (do
      let x ← m
      setCdr tail (d x)
      k x) res := by
  intro s hs
  cases tail with
  | obj t =>
    have ht : t < s.heap.next := hs.fits _ htail
    have hboth := (hm b vs).both (hm s.heap.next []) s ⟨hs, hs.toTidy.ctx⟩
    apply wp_seq hboth
    intro x u hu
    have hu' : u.Ctx c s.heap.next [d x] := hu.2.weaken fun v hv => .inl (by rw [List.mem_singleton.1 hv]; simp [hd x])
    have hnew : d x ∈ out x ++ vs := List.mem_append_left vs (hd x)
    apply wp_seq (setCdr_tidy hnew ht u ⟨hu.1, hu'⟩)
    intro _ w hw
    apply wp_mono (hk x w hw) _ fun _ _ h => h
    intro y t ht
    exact ht.weaken fun v hv => .inl (by rcases List.mem_append.1 hv with hv | hv <;> simp [hv])
  | _ =>
    apply wp_seq (hm b vs s hs)
    intro x u hu
    exact wp_bind (wp_bind (wp_stuck id))

/-! ## Lists and quotes -/

section Nested
variable {rf : Reader → ML (Val × Reader)} (hrf : ∀ b vs r, Tidies c b vs (rf r) fun x => [x.1])
include hrf

/-- Read an element and make a cell for it. -/
theorem readCell_tidy (sp b : Nat) (vs : List Val) (r : Reader) : Tidies c b vs (do
    let x ← (rf r).onErr (mlGcRestore sp)
    (mlGcProtect c x.1).onErr (mlGcRestore sp)
    let cell ← ((mlGcAllocPair c x.1 mvNil).andThen (mlGcUnprotect 1)).onErr (mlGcRestore sp)
    pure (cell, x.2)) fun x => [x.1] := by
  apply (hrf b vs r).onErr_restore.bind
  intro x
  apply (Tidies.mlGcProtect .top).onErr_restore.seq
  intro _
  apply (Tidies.mlGcAllocPair .top plain_imm.known).andThen_unprotect.onErr_restore.bind
  exact fun cell => tidy_read .top

theorem readListLoop_tidy {sp : Nat} {head : Val} (n : Nat) (tail : Val) (r : Reader) (htail : tail ∈ vs) :
    Tidies c b vs (readListLoop c rf sp head n tail r) fun _ => [] := by
  have hfst : ∀ x : Val × Reader, x.1 ∈ [x.1] := fun x => List.mem_singleton_self x.1
  induction n generalizing vs tail r with
  | zero => exact .timeout
  | succ n ih =>
    simp only [readListLoop]
    split
    · exact Tidies.onErr_restore .raise
    · apply Tidies.ite .none
      apply Tidies.ite
      · apply Tidies.ite (Tidies.onErr_restore .raise)
        apply setCdr_new htail (d := Prod.fst) hfst fun b vs => (hrf b vs _).onErr_restore
        intro x
        exact .ite (Tidies.onErr_restore .raise) .none
      · have hcell := setCdr_new (b := b) htail (d := Prod.fst) hfst
          (fun b vs => readCell_tidy hrf sp b vs (skipWsAndComments r)) fun x => ih x.1 x.2 List.mem_cons_self
        simpa only [bind_assoc, pure_bind] using hcell

theorem readList_tidy : Tidies c b vs (readList c rf r) fun x => [x.1] := by
  unfold readList
  apply Tidies.ite .raise
  dsimp only
  apply Tidies.ite (tidy_read plain_imm.known)
  apply Tidies.savepoint
  intro sp
  apply (Tidies.mlGcAllocPair plain_imm.known plain_imm.known).bind
  intro head
  apply (Tidies.mlGcProtect .top).seq
  intro _
  apply (readListLoop_tidy hrf _ head _ (by simp)).seq
  intro r
  apply (cdr_since .top).bind
  intro out
  apply (Tidies.modify fun s hs => hs.restore sp).seq
  exact fun _ => tidy_read .top

theorem readQuote_tidy (hq : ∀ n, c.symQuote.Fit n) : Tidies c b vs (readQuote c rf r) fun x => [x.1] := by
  unfold readQuote
  apply (hrf b vs _).bind
  intro x
  apply Tidies.ite .raise
  apply Tidies.savepoint
  intro sp
  apply (Tidies.mlGcProtect .top).seq
  intro _
  apply (Tidies.mlGcAllocPair .top plain_imm.known).onErr_restore.bind
  intro inner
  apply (Tidies.modify fun s hs => hs.unprotect 1).seq
  intro _
  apply (Tidies.mlGcProtect .top).seq
  intro _
  apply (Tidies.mlGcAllocPair (.inr hq) .top).andThen_restore.bind
  exact fun out => tidy_read .top

end Nested

theorem readForm_tidy (hq : ∀ n, c.symQuote.Fit n) (n b : Nat) (vs : List Val) (r : Reader) :
    Tidies c b vs (readForm c n r) fun x => [x.1] := by
  induction n generalizing b vs r with
  | zero => exact .timeout
  | succ n ih =>
    unfold readForm
    dsimp only
    split
    · exact tidy_read plain_imm.known
    · refine .ite (readList_tidy ih) (.ite .raise (.ite (readQuote_tidy ih hq) ?_))
      refine .ite readString_tidy (.ite readHash_tidy (.ite readNumber_tidy ?_))
      exact .ite (.ite readNumber_tidy readSymbol_tidy) readSymbol_tidy

end Reader
end Microlisp
