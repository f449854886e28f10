import Microlisp.Reading.Tokens
import Microlisp.Accepts
/-!
# The reader refines the parser: forms

By induction on the forms inside one another. While a list is read its dummy head is
rooted, so each form inside keeps the cells so far; it is made of newer objects, so
overwriting the `cdr` of the last cell does not change it.
-/
namespace Microlisp

open Prog

theorem Refused.bind {α β : Type} {p : Parse α} {f : α → Parse β} {e : Status} {t : State} (h : Refused p e t) :
    Refused (p >>= f) e t := by
  rcases h with h | h
  · exact .inl h
  · exact .inr (by rw [h]; rfl)

theorem onErr_refused {α β : Type} {P : Prop} {m : ML α} {p : Parse β} {s : State} {n : Nat} {Q : α → State → Prop}
    (h : wp (readMode P) m s Q (Refused p)) : wp (readMode P) (m.onErr (mlGcRestore n)) s Q (Refused p) :=
  wp_onErr (wp_mono h (fun _ _ h => h) fun _ _ h => h)

/-- The list loop, entered at `s` with its dummy head at `a`: the cells of the elements so
far hang off the head, and the last cell is at `t`. -/
structure State.Builds (c : Config) (s : State) (a : Nat) (elems : List Datum) (t : Nat) (u : State) : Prop where
  reads : s.Reads c [.obj a] u
  base : s.heap.next ≤ a
  cells : u.heap.Cells u.symtab.entries s.heap.next a elems t
  last : ∃ z, u.heap.get t = some (.pair z mvNil)

section Builds
variable {c : Config} {s u w : State} {a t : Nat} {elems : List Datum} {l : List Val}

theorem State.Builds.kept (h : s.Builds c a elems t u) : u.Kept c a :=
  h.reads.good.pushed (List.mem_singleton.2 rfl) a rfl

theorem State.Builds.new (h : s.Builds c a elems t u) : s.heap.next ≤ t := Nat.le_trans h.base h.cells.le

/-- The last cell is older than what is read next. -/
theorem State.Builds.lt_next (h : s.Builds c a elems t u) : t < u.heap.next := by
  obtain ⟨z, hz⟩ := h.last
  exact (Heap.lt_next_of_get hz).2

theorem State.Builds.later (h : s.Builds c a elems t u) (hw : u.Reads c l w) :
    w.heap.Cells w.symtab.entries s.heap.next a elems t ∧ ∃ z, w.heap.get t = some (.pair z mvNil) := by
  obtain ⟨z, hz⟩ := h.last
  exact ⟨hw.good.cells h.cells h.kept, z, hw.good.get (h.cells.kept h.kept) hz rfl⟩

theorem State.Builds.seq (h : s.Builds c a elems t u) (hw : u.Reads c [] w) : s.Builds c a elems t w :=
  ⟨h.reads.seq hw, h.base, (h.later hw).1, (h.later hw).2⟩

/-- Overwriting the `cdr` of the last cell: what hangs off the head then. -/
theorem State.Builds.setCdr {P : Prop} {d : Datum} {v : Val} {E : Status → State → Prop} (hs : s.Ready c)
    (hreads : s.Reads c l u) (hbase : s.heap.next ≤ a) (hcells : u.heap.Cells u.symtab.entries s.heap.next a elems t)
    (hlast : ∃ z, u.heap.get t = some (.pair z mvNil)) (hd : u.Shows (fun k => t < k ∧ k < u.heap.next) d v) :
    wp (readMode P) (setCdr (.obj t) v) u (fun _ w => s.Reads c l w ∧ w.heap.next = u.heap.next ∧
      ∃ x y, w.heap.get a = some (.pair x y) ∧ s.New w (.list elems d) y) E := by
  obtain ⟨z, hz⟩ := hlast
  have hle := hcells.le
  apply wp_mono (setCdr_reads hs hreads (by omega) hz hd.valOk) _ fun _ _ h => h
  rintro _ w ⟨hw, rfl⟩
  have hshow : (u.heap.set t (.pair z v)).Shows u.symtab.entries (fun k => s.heap.next ≤ k ∧ k < u.heap.next) d v := by
    apply hd.transfer
    · exact fun k o hk ho _ => Heap.get_setCdr (by omega) ho
    · exact List.prefix_refl _
    · exact fun k hk _ => ⟨by omega, hk.2⟩
  have hlt := (Heap.lt_next_of_get hz).2
  have hself := Heap.get_setCdr_self (d := v) hz
  obtain ⟨x, y, hx, hy⟩ := (hcells.setCdr hz).shows (fun k hk hkt => ⟨hk, by omega⟩) hbase ⟨z, hself⟩ hshow
  exact ⟨hw, rfl, x, y, hx, hy⟩

/-- Linking one more cell. -/
theorem State.Builds.snoc {P : Prop} {y : Nat} {d : Datum} {z : Val} {E : Status → State → Prop} (hs : s.Ready c)
    (hu : s.Builds c a elems t u) (hty : t < y) (hy : u.heap.get y = some (.pair z mvNil))
    (hd : u.Shows (fun k => t < k ∧ k < y) d z) :
    wp (readMode P) (Microlisp.setCdr (.obj t) (.obj y)) u (fun _ w => s.Builds c a (elems ++ [d]) y w) E := by
  obtain ⟨x, hx⟩ := hu.last
  have hnew := hu.new
  have hok : u.heap.ValOk (.obj y) := ⟨_, hy, rfl⟩
  apply wp_mono (setCdr_reads hs hu.reads hnew hx hok) _ fun _ _ h => h
  rintro _ w ⟨hw, rfl⟩
  have hy' : (u.heap.set t (.pair x (.obj y))).get y = some (.pair z mvNil) := Heap.get_setCdr (by omega) hy
  refine ⟨hw, hu.base, .snoc (hu.cells.setCdr hx) (Heap.get_setCdr_self hx) hty hy' ?_, z, hy'⟩
  apply hd.transfer
  · exact fun k o hk ho _ => Heap.get_setCdr (by omega) ho
  · exact List.prefix_refl _
  · exact fun k hk _ => ⟨by omega, hk.2⟩

/-- The cell of an element, which is rooted meanwhile. -/
theorem State.Builds.newCell {P : Prop} {d : Datum} {v : Val} {K : Nat → Prop} {u' : State} (hs : s.Ready c)
    (hu : s.Builds c a elems t u) (hd : u.Shows K d v) (hu' : u.Reads c [v] u') (hheap : u'.heap = u.heap)
    (htable : u'.symtab = u.symtab) :
    wp (readMode P) ((mlGcAllocPair c v mvNil).andThen (mlGcUnprotect 1)) u' (fun y w => s.Builds c a elems t w ∧
      y = .obj u.heap.next ∧ w.heap.get u.heap.next = some (.pair v mvNil) ∧ w.Shows K d v)
        (fun e _ => e = .errNomem) := by
  have hd' : u'.Shows K d v := by
    unfold State.Shows
    rw [hheap, htable]
    exact hd
  have hkept : v.In (u'.Kept c) := hu'.good.pushed (List.mem_singleton.2 rfl)
  have hrefs : ∀ w ∈ (Obj.pair v mvNil).refs, w.In (u'.Kept c) := by
    intro w hw
    rcases List.mem_pair.1 hw with rfl | rfl
    · exact hkept
    · exact nofun
  have hready := hu'.ready (hu.reads.ready hs)
  apply wp_andThen
  have hok : u'.heap.ObjOk (.pair v mvNil) := ⟨hd'.valOk, trivial⟩
  apply wp_mono (gcAlloc_reads hready hok rfl hrefs) _ fun _ _ h => h
  rintro _ w ⟨hw, rfl, hget, -⟩
  rw [hheap] at hget ⊢
  have hlater := hu.later (hu'.seq hw)
  have hreads : s.Reads c ([.obj a] ++ [v]) w := (hu.reads.trans hu').seq hw
  exact ⟨⟨hreads.unprotect, hu.base, hlater.1, hlater.2⟩, rfl, hget, hw.good.shows hd' hkept⟩

end Builds

/-! ## Lists -/

section Nested
variable {c : Config} {P : Prop} {s : State} {m : Reader → ML (Val × Reader)}
    {pf : Reader → Parse (Option Datum × Reader)}
  (hform : ∀ u r, u.Ready c → Refines c P State.NewForm u (m r) (pf r))
  (hend : ∀ r r', pf r = .ok (none, r') → r' = skipWsAndComments r ∧ r'.peek = none)

include hform hend

theorem readListLoop_refines (hs : s.Ready c) {a : Nat} (sp n : Nat) {elems : List Datum} {t : Nat} {u : State}
    (r : Reader) (hu : s.Builds c a elems t u) (hfuel : parseListLoop pf n elems r = .error .fuel → ¬ P) :
    wp (readMode P) (readListLoop c m sp (.obj a) n (.obj t) r) u
      (fun r' w => s.Reads c [.obj a] w ∧ ∃ d, parseListLoop pf n elems r = .ok (d, r') ∧
        ∃ x y, w.heap.get a = some (.pair x y) ∧ s.New w d y)
      (Refused (parseListLoop pf n elems r)) := by
  induction n generalizing elems t u r with
  | zero => exact wp_timeout (hfuel rfl)
  | succ n ih =>
    simp only [readListLoop, parseListLoop] at hfuel ⊢
    cases hpeek : (skipWsAndComments r).peek with
    | none => exact onErr_refused raise_refused
    | some b =>
      simp only [hpeek] at hfuel ⊢
      have hhead : (Val.obj t = Val.obj a) ↔ elems = [] := by
        rw [Val.obj.injEq]
        exact hu.cells.eq_head_iff
      by_cases hclose : b = ch ')'
      · -- the end of the list: nothing but `()` hangs off the last cell
        simp only [if_pos hclose]
        obtain ⟨z, hz⟩ := hu.last
        obtain ⟨x, y, hx, hy⟩ := hu.cells.shows (f := .nil) (K := fun k => s.heap.next ≤ k ∧ k < u.heap.next)
          (fun k hk hkt => ⟨hk, Nat.lt_of_le_of_lt hkt hu.lt_next⟩) hu.base ⟨z, hz⟩ rfl
        exact wp_pure ⟨hu.reads, _, rfl, x, y, hx, hy⟩
      simp only [if_neg hclose] at hfuel ⊢
      by_cases hdot : (decide (b = ch '.') && (skipWsAndComments r).peek2.isSome
          && isTerminator (skipWsAndComments r).peek2) = true
      · simp only [if_pos hdot, hhead] at hfuel ⊢
        by_cases helems : elems = []
        · simp only [if_pos helems]
          exact onErr_refused raise_refused
        simp only [if_neg helems] at hfuel ⊢
        have hf := hform u (skipWsAndComments r).advance (hu.reads.ready hs) fun hp => hfuel (by rw [hp]; rfl)
        apply wp_seq (onErr_refused (wp_mono hf (fun _ _ h => h) fun _ _ h => h.bind))
        rintro ⟨v, r₁⟩ u₁ ⟨hu₁, y, hp, hy⟩
        have hb := hu.seq hu₁
        rw [hp] at hfuel ⊢
        simp only [bind, Except.bind] at hfuel ⊢
        cases y with
        | none =>
          -- no tail before the end of the input, and so no parenthesis after it
          obtain ⟨heq, hpeek₁⟩ := hend _ _ hp
          have hpeek₂ : (skipWsAndComments r₁).peek ≠ some (ch ')') := by
            dsimp only at heq hpeek₁
            rw [heq, skip_skip, ← heq, hpeek₁]
            simp
          obtain ⟨z, hz⟩ := hb.last
          have heof : v = mvEof := hy
          have hok : u₁.heap.ValOk v := heof ▸ (trivial : u₁.heap.ValOk mvEof)
          simp only [if_pos hpeek₂]
          apply wp_seq (setCdr_reads hs hb.reads hb.new hz hok)
          exact fun _ w _ => onErr_refused raise_refused
        | some d =>
          have hlt := hu.lt_next
          apply wp_seq (State.Builds.setCdr hs hb.reads hb.base hb.cells hb.last (hy.mono fun k hk => ⟨by omega, hk.2⟩))
          rintro _ w ⟨hw, -, hshow⟩
          by_cases hclose' : (skipWsAndComments r₁).peek ≠ some (ch ')')
          · simp only [if_pos hclose']
            exact onErr_refused raise_refused
          · simp only [if_neg hclose']
            exact wp_pure ⟨hw, _, rfl, hshow⟩
      · simp only [if_neg hdot] at hfuel ⊢
        have hf := hform u (skipWsAndComments r) (hu.reads.ready hs) fun hp => hfuel (by rw [hp]; rfl)
        apply wp_seq (onErr_refused (wp_mono hf (fun _ _ h => h) fun _ _ h => h.bind))
        rintro ⟨v, r₁⟩ u₁ ⟨hu₁, y, hp, hy⟩
        have hb := hu.seq hu₁
        rw [hp] at hfuel ⊢
        simp only [bind, Except.bind] at hfuel ⊢
        cases y with
        | none =>
          obtain ⟨heq, hpeek₁⟩ := hend _ _ hp
          rw [heq, skip_skip, hpeek] at hpeek₁
          cases hpeek₁
        | some d =>
          have hshow : u.New u₁ d v := hy
          have hlt := hu.lt_next
          have hready₁ := hb.reads.ready hs
          apply wp_seq
            (onErr_refused (wp_mono (mlGcProtect_reads hready₁ hshow.valOk) (fun _ _ h => h) fun _ _ h => .inl h))
          rintro _ u₂ ⟨hu₂, hheap, htable⟩
          have hshow' : u₁.Shows (fun k => t < k ∧ k < u₁.heap.next) d v := hshow.mono fun k hk => ⟨by omega, hk.2⟩
          apply wp_seq
            (onErr_refused (wp_mono (hb.newCell hs hshow' hu₂ hheap htable) (fun _ _ h => h) fun _ _ h => .inl h))
          rintro _ u₃ ⟨hb₃, rfl, hy, hshow₃⟩
          apply wp_seq (hb₃.snoc hs (Nat.lt_of_lt_of_le hlt hu₁.next_le) hy hshow₃)
          exact fun _ w hw => ih _ hw hfuel

theorem readList_refines (hs : s.Ready c) (r : Reader) :
    Refines c P State.New s (readList c m r) (parseList c.maxReadDepth pf r) := by
  apply Refines.ite
  · exact fun _ => raise_refines
  intro _
  apply Refines.ite
  · exact fun _ => pure_refines hs fun _ => rfl
  intro _ hfuel
  apply wp_bind (wp_gets _)
  have hok : s.heap.ObjOk (.pair mvNil mvNil) := ⟨trivial, trivial⟩
  have hrefs : ∀ w ∈ (Obj.pair mvNil mvNil).refs, w.In (s.Kept c) := by
    intro w hw
    rcases List.mem_pair.1 hw with rfl | rfl <;> exact nofun
  apply wp_seq (wp_mono (gcAlloc_reads hs hok rfl hrefs) (fun _ _ h => h) fun _ _ h => .inl h)
  rintro _ u ⟨hu, rfl, hget, -⟩
  have hval : u.heap.ValOk (.obj s.heap.next) := ⟨_, hget, rfl⟩
  apply wp_seq (wp_mono (mlGcProtect_reads (hu.ready hs) hval) (fun _ _ h => h) fun _ _ h => .inl h)
  rintro _ w ⟨hw, hheap, -⟩
  have hreads : s.Reads c [.obj s.heap.next] w := hu.trans hw
  have hbuilds : s.Builds c s.heap.next [] s.heap.next w := ⟨hreads, Nat.le_refl _, .head, mvNil, by rw [hheap, hget]⟩
  have hloop := readListLoop_refines hform hend hs s.gcProtect.length _ _ hbuilds fun hp => hfuel (by rw [hp]; rfl)
  apply wp_seq (wp_mono hloop (fun _ _ h => h) fun _ _ h => h.bind)
  rintro r₁ t ⟨ht, d, hp, x, y, hx, hy⟩
  apply wp_seq (cdr_wp fun _ => ⟨x, y, _, rfl, hx⟩)
  rintro _ _ ⟨rfl, x', _, ⟨⟩, hx'⟩
  rw [hx] at hx'
  cases hx'
  apply wp_bind (wp_modify _)
  apply wp_pure
  exact ⟨ht.restore (l := []), d, by rw [hp]; rfl, hy⟩

omit hend in
theorem readQuote_refines (hs : s.Ready c) (r : Reader) :
    Refines c P State.New s (readQuote c m r) (parseQuote pf r) := by
  intro hfuel
  unfold readQuote parseQuote at *
  have hf := hform s r.advance hs fun hp => hfuel (by rw [hp]; rfl)
  apply wp_seq (wp_mono hf (fun _ _ h => h) fun _ _ h => h.bind)
  rintro ⟨v, r₁⟩ u ⟨hu, y, hp, hy⟩
  rw [hp]
  cases y with
  | none =>
    have heof : v = mvEof := hy
    dsimp only
    rw [if_pos heof]
    exact raise_refused
  | some d =>
    have hshow : s.New u d v := hy
    have hready := hu.ready hs
    dsimp only
    rw [if_neg hshow.ne_eof]
    apply wp_bind (wp_gets _)
    apply wp_seq (wp_mono (mlGcProtect_reads hready hshow.valOk) (fun _ _ h => h) fun _ _ h => .inl h)
    rintro _ u₁ ⟨hu₁, hheap, htable⟩
    have hshow₁ : u₁.Shows (fun k => s.heap.next ≤ k ∧ k < u.heap.next) d v := by
      unfold State.Shows
      rw [hheap, htable]
      exact hshow
    -- the datum is on the protect stack while the inner pair is made
    have hkept : v.In (u₁.Kept c) := hu₁.good.pushed (List.mem_singleton.2 rfl)
    have hrefs : ∀ w ∈ (Obj.pair v mvNil).refs, w.In (u₁.Kept c) := by
      intro w hw
      rcases List.mem_pair.1 hw with rfl | rfl
      · exact hkept
      · exact nofun
    have hok : u₁.heap.ObjOk (.pair v mvNil) := ⟨hshow₁.valOk, trivial⟩
    apply wp_seq
      (onErr_refused (wp_mono (gcAlloc_reads (hu₁.ready hready) hok rfl hrefs) (fun _ _ h => h) fun _ _ h => .inl h))
    rintro _ u₂ ⟨hu₂, rfl, hget₂, hnext₂⟩
    have hreads₂ : u.Reads c [] (mlGcUnprotect 1 u₂) := (hu₁.seq hu₂).unprotect (l := []) (r := [v])
    have hshow₂ : u₂.Shows (fun k => s.heap.next ≤ k ∧ k < u.heap.next) d v := hu₂.good.shows hshow₁ hkept
    apply wp_bind (wp_modify _)
    have hready₂ := hreads₂.ready hready
    have hval : (mlGcUnprotect 1 u₂).heap.ValOk (.obj u₁.heap.next) := ⟨_, hget₂, rfl⟩
    apply wp_seq (wp_mono (mlGcProtect_reads hready₂ hval) (fun _ _ h => h) fun _ _ h => .inl h)
    rintro _ u₃ ⟨hu₃, hheap₃, htable₃⟩
    have hready₃ := hu₃.ready hready₂
    have hle := hu.next_le
    have hle₁ := hu₁.next_le
    have hle₂ := hu₂.next_le
    have hinner : u₃.Shows (fun k => s.heap.next ≤ k ∧ k < u₂.heap.next) (.pair d .nil) (.obj u₁.heap.next) := by
      unfold State.Shows
      rw [hheap₃, htable₃]
      exact ⟨_, v, mvNil, rfl, ⟨by omega, by omega⟩, hget₂, hshow₂.mono fun k hk => ⟨hk.1, by omega⟩, rfl⟩
    -- and the inner pair while the outer one is
    have hkept₃ : (Val.obj u₁.heap.next).In (u₃.Kept c) := hu₃.good.pushed (List.mem_singleton.2 rfl)
    have hrefs₃ : ∀ w ∈ (Obj.pair c.symQuote (.obj u₁.heap.next)).refs, w.In (u₃.Kept c) := by
      intro w hw
      rcases List.mem_pair.1 hw with rfl | rfl
      · obtain ⟨i, hi, -⟩ := hs.quote
        rw [hi]
        exact nofun
      · exact hkept₃
    have hok₃ : u₃.heap.ObjOk (.pair c.symQuote (.obj u₁.heap.next)) := ⟨hready₃.quote.valOk, hinner.valOk⟩
    have hreads₃ : u.Reads c ([] ++ [.obj u₁.heap.next]) u₃ := hreads₂.trans hu₃
    apply wp_seq (wp_andThen (wp_mono (gcAlloc_reads hready₃ hok₃ rfl hrefs₃) (fun v w hw => ?_) fun _ _ h => .inl h))
    · exact fun v w (hw : s.Reads c [] w ∧ s.New w (.list [.sym (ascii "quote"), d] .nil) v) =>
        wp_pure ⟨hw.1, _, rfl, hw.2⟩
    · obtain ⟨hw, rfl, hget, hnext⟩ := hw
      have hle₃ : u₂.heap.next = u₃.heap.next := by rw [hheap₃]; rfl
      refine ⟨hu.seq ((hreads₃.seq hw).restore (l := [])), _, c.symQuote, .obj u₁.heap.next, rfl,
        ⟨by omega, ?_⟩, hget, ?_, ?_⟩
      · show u₃.heap.next < w.heap.next
        omega
      · exact (hw.ready hready₃).quote.mono fun _ hf => hf.elim
      · exact (hw.good.shows hinner hkept₃).mono fun k hk => ⟨hk.1, by show k < w.heap.next; omega⟩

end Nested

/-! ## Forms -/

section Form
variable {c : Config} {P : Prop} {s : State}

theorem Refines.some {m : ML (Val × Reader)} {p : Parse (Datum × Reader)} (h : Refines c P State.New s m p) :
    Refines c P State.NewForm s m (p >>= fun x => .ok (some x.1, x.2)) := by
  intro hfuel
  apply wp_mono (h fun hp => hfuel (by rw [hp]; rfl))
  · rintro ⟨v, r⟩ t ⟨ht, d, hp, hd⟩
    exact ⟨ht, Option.some d, by rw [hp]; rfl, hd⟩
  · exact fun _ _ h => h.bind

theorem readForm_refines (n : Nat) (r : Reader) (hs : s.Ready c) :
    Refines c P State.NewForm s (readForm c n r) (parseForm c.maxReadDepth n r) := by
  induction n generalizing s r with
  | zero => exact fun hfuel => wp_timeout (hfuel rfl)
  | succ n ih =>
    simp only [readForm, parseForm]
    cases hpeek : (skipWsAndComments r).peek with
    | none => exact fun _ => wp_pure ⟨.refl hs, none, rfl, rfl⟩
    | some b =>
      have hform : ∀ u r, u.Ready c → Refines c P State.NewForm u (readForm c n r) (parseForm c.maxReadDepth n r) :=
        fun u r hu => ih r hu
      apply Refines.some
      simp only [parseDatum]
      refine .ite (fun _ => readList_refines hform (fun _ _ => parseForm_none) hs _) fun _ => ?_
      refine .ite (fun _ => raise_refines) fun _ => .ite (fun _ => readQuote_refines hform hs _) fun _ => ?_
      refine .ite (fun _ => readString_refines hs) fun _ => .ite (fun _ => readHash_refines hs) fun _ => ?_
      refine .ite (fun _ => readNumber_refines hs) fun _ => ?_
      by_cases hsign : (decide (b = ch '+') || decide (b = ch '-')) = true
      · rw [if_pos hsign]
        simp only [hsign, Bool.true_and]
        exact .ite (fun _ => readNumber_refines hs) fun _ => readSymbol_refines hs
      · rw [if_neg hsign, if_neg (by simp [hsign])]
        exact readSymbol_refines hs

theorem mlRead_refines (hs : s.Ready c) (r : Reader) :
    Refines c P State.NewForm s (mlRead c r) (parse c.maxReadDepth r) :=
  readForm_refines _ r hs

end Form
end Microlisp
