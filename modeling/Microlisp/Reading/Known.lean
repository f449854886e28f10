import Microlisp.Reading.Room
import Microlisp.Writing
/-!
# Reading known names

A datum whose names are all in the table is read without an entry to it, so a full table is
no obstacle.
-/
namespace Microlisp

open Prog Reader

/-- The names in the table. -/
def State.Table (S : List Bytes) (s : State) : Prop := s.symtab.entries = S

/-- Where the parser takes something with names from `S` only, the reader does not run out of
memory, stays with the parser and leaves the table alone. -/
def Interned {α β : Type} (S : List Bytes) (names : β → List Bytes) (m : ML (α × Reader))
    (p : Parse (β × Reader)) : Prop :=
  ∀ y r', p = .ok (y, r') → (∀ n ∈ names y, n ∈ S) →
    Triple (Mode.noting fun _ => True) (State.Table S) m (fun x s => x.2 = r' ∧ s.Table S) (fun e _ => e ≠ .errNomem)

/-- The names in what a form is. -/
def formNames (y : Option Datum) : List Bytes := y.elim [] Datum.names

section Interned
variable {α β γ : Type} {S : List Bytes} {names : β → List Bytes} {c : Config} {r : Reader} {m m' : ML (α × Reader)}
  {p p' : Parse (β × Reader)}

theorem Interned.pure {a : α} {b : β} : Interned S names (Pure.pure (a, r) : ML _) (.ok (b, r)) := by
  rintro y r' ⟨⟩ -
  exact Triple.pure fun _ hs => ⟨rfl, hs⟩

theorem Interned.refuse {line column : Nat} {message : Bytes} {e : Status} :
    Interned S names m (Microlisp.refuse line column message e) := nofun

theorem Interned.ite {b : Prop} [Decidable b] (h : b → Interned S names m p) (h' : ¬ b → Interned S names m' p') :
    Interned S names (if b then m else m') (if b then p else p') := by
  split
  · exact h ‹_›
  · exact h' ‹_›

theorem raise_table {Q : α → State → Prop} {line column : Nat} {message : Bytes} {e : Status} (he : e ≠ .errNomem) :
    Triple (Mode.noting fun _ => True) (State.Table S) (raise line column message e : ML α) Q
      (fun e _ => e ≠ .errNomem) :=
  fun _ _ => wp_bind (wp_modify (wp_fail he))

/-- The parser took something, so its first part did. -/
theorem parse_bind {q : Parse α} {f : α → Parse β} {b : β} (h : q >>= f = .ok b) : ∃ a, q = .ok a ∧ f a = .ok b := by
  cases q with
  | error e => cases h
  | ok a => exact ⟨a, rfl, h⟩

/-! ## Tokens -/

theorem readHash_interned : Interned S Datum.names (readHash r) (parseHash r) := by
  apply Interned.ite fun _ => .pure
  exact fun _ => .ite (fun _ => .pure) fun _ => .refuse

theorem readNumber_interned {sign : Int} : Interned S Datum.names (readNumber sign r) (parseNumber sign r) := by
  unfold readNumber parseNumber
  rcases readDigits r.rest r 0 false with ⟨none | value, any, r'⟩
  · exact .refuse
  dsimp only
  refine .ite (fun _ => .refuse) fun _ => .ite (fun _ => .refuse) fun _ => ?_
  have hmake : ∀ x : Int, Interned S Datum.names (if x < mFixMin || x > mFixMax then
        raise r.line r.column (ascii "integer literal exceeds 60-bit fixnum range") .errOverflow
      else do
        let v ← makeFix x
        pure (v, r')) (if x < mFixMin || x > mFixMax then
        refuse r.line r.column (ascii "integer literal exceeds 60-bit fixnum range") .errOverflow
      else .ok (.fix x, r')) := by
    intro x
    apply Interned.ite fun _ => .refuse
    rintro _ _ _ ⟨⟩ -
    exact fun s hs => wp_bind (makeFix_wp trivial (wp_pure ⟨rfl, hs⟩))
  intro y r'' hp hnames
  by_cases hsign : sign < 0
  · simp only [if_pos hsign] at hp ⊢
    exact fun s hs => wp_bind (int64Op_wp trivial False.elim (hmake _ y r'' hp hnames s hs))
  · simp only [if_neg hsign] at hp ⊢
    exact fun s hs => wp_bind (wp_pure (hmake value y r'' hp hnames s hs))

theorem mlSymIntern_table {name : Bytes} (hname : name ∈ S) :
    Triple (Mode.noting fun _ => True) (State.Table S) (mlSymIntern c name) (fun _ => State.Table S)
      (fun e _ => e ≠ .errNomem) := by
  rintro s rfl
  apply wp_bind (wp_gets _)
  split
  · exact wp_pure rfl
  · rename_i hnone
    exact absurd (List.findIdx?_eq_none_iff.1 hnone name hname) (by simp)

theorem readSymbol_interned : Interned S Datum.names (readSymbol c r) (parseSymbol r) := by
  rintro _ _ ⟨⟩ hnames
  exact (mlSymIntern_table (hnames _ (List.mem_singleton.2 rfl))).seq fun _ => .pure fun _ hs => ⟨rfl, hs⟩

theorem readEscape_table {l k : Nat} {x : UInt8 × Reader} (hp : parseEscape l k r = .ok x) :
    Triple (Mode.noting fun _ => True) (State.Table S) (readEscape l k r) (fun x' s => x' = x ∧ s.Table S)
      (fun e _ => e ≠ .errNomem) := by
  have hpure : ∀ {y : UInt8 × Reader}, (.ok y : Parse _) = .ok x →
      Triple (Mode.noting fun _ => True) (State.Table S) (pure y : ML _) (fun x' s => x' = x ∧ s.Table S)
        (fun e _ => e ≠ .errNomem) := by
    rintro _ ⟨⟩
    exact .pure fun _ hs => ⟨rfl, hs⟩
  unfold readEscape
  unfold parseEscape at hp
  cases hpeek : r.peek with
  | none =>
    rw [hpeek] at hp
    cases hp
  | some esc =>
    simp only [hpeek] at hp ⊢
    iterate 6
      split at hp
      · rename_i he
        rw [if_pos he]
        exact hpure hp
      rename_i he
      rw [if_neg he]
      clear he
    by_cases he : esc = ch 'x'
    · simp only [if_pos he] at hp ⊢
      cases h1 : r.advance.peek.bind hexDigit with
      | none =>
        simp only [h1] at hp
        cases hp
      | some hi =>
        cases h2 : r.advance.advance.peek.bind hexDigit with
        | none =>
          simp only [h1, h2] at hp
          cases hp
        | some lo =>
          simp only [h1, h2] at hp ⊢
          exact hpure hp
    · rw [if_neg he] at hp
      cases hp

theorem readStringLoop_interned (hc : ∀ n size, c.alloc n size = true) {l k : Nat} (n : Nat) (r : Reader)
    (buf : Bytes) (cap : Nat)
    (hcap : cap ≠ 0) : Interned S (fun _ => []) (readStringLoop c l k n r buf cap) (parseStringLoop l k n r buf) := by
  induction n generalizing r buf cap with
  | zero => exact nofun
  | succ n ih =>
    intro y r' hp _
    unfold readStringLoop
    unfold parseStringLoop at hp
    cases hpeek : r.peek with
    | none =>
      rw [hpeek] at hp
      cases hp
    | some b =>
      simp only [hpeek] at hp ⊢
      by_cases hq : b = ch '"'
      · rw [if_pos hq] at hp ⊢
        cases hp
        exact .pure fun _ hs => ⟨rfl, hs⟩
      rw [if_neg hq] at hp ⊢
      have hgrow : ∀ x : UInt8 × Reader, parseStringLoop l k n x.2 (buf ++ [x.1]) = .ok (y, r') →
          Triple (Mode.noting fun _ => True) (State.Table S) (do
            let cap ← if buf.length = cap then do
                rawAllocOrFail c (cap * 2)
                pure (cap * 2)
              else
                pure cap
            readStringLoop c l k n x.2 (buf ++ [x.1]) cap)
            (fun x s => x.2 = r' ∧ s.Table S) (fun e _ => e ≠ .errNomem) := by
        intro x hx
        have hloop : ∀ cap, cap ≠ 0 → Triple (Mode.noting fun _ => True) (State.Table S)
            (readStringLoop c l k n x.2 (buf ++ [x.1]) cap) (fun x s => x.2 = r' ∧ s.Table S)
              (fun e _ => e ≠ .errNomem) :=
          fun cap hcap => ih x.2 (buf ++ [x.1]) cap hcap y r' hx (fun _ h => by cases h)
        have hcap' : cap * 2 ≠ 0 := by omega
        apply Triple.ite
        · intro _
          apply (rawAllocOrFail_table (P := fun t => t.entries = S) hc hcap').seq
          exact fun _ s hs => wp_bind (wp_pure (hloop _ hcap' s hs))
        · exact fun _ s hs => wp_bind (wp_pure (hloop _ hcap s hs))
      by_cases hb : b = ch '\\'
      · rw [if_pos hb] at hp ⊢
        obtain ⟨x, hx, hp⟩ := parse_bind hp
        apply Triple.bind (readEscape_table hx)
        rintro x s ⟨rfl, hs⟩
        exact hgrow x hp s hs
      · rw [if_neg hb] at hp ⊢
        exact fun s hs => wp_bind (wp_pure (hgrow (b, r.advance) hp s hs))

theorem readString_interned (hc : ∀ n size, c.alloc n size = true) (hd : ∀ s, c.collectDue s = false) :
    Interned S Datum.names (readString c r) (parseString r) := by
  intro y r' hp _
  obtain ⟨⟨buf, r₁⟩, hloop, hp⟩ := parse_bind hp
  cases hp
  apply (rawAllocOrFail_table (P := fun t => t.entries = S) hc (by decide)).seq
  intro _
  apply Triple.bind (readStringLoop_interned hc _ _ _ _ (by decide) buf r' hloop nofun)
  rintro x s ⟨rfl, hs⟩
  apply wp_seq (gcAlloc_table (P := fun t => t.entries = S) hc hd (by omega) s hs)
  exact fun _ t ht => wp_pure ⟨rfl, ht⟩

end Interned

/-! ## Forms -/

section Forms
variable {α : Type} {S : List Bytes} {c : Config} {r : Reader} {m : Reader → ML (Val × Reader)}
    {pf : Reader → Parse (Option Datum × Reader)}
  (hc : ∀ n size, c.alloc n size = true) (hd : ∀ s, c.collectDue s = false)
  (hm : ∀ r, Interned S formNames (m r) (pf r))

/-- The names of a list are those of its elements and of its tail. -/
theorem names_list {elems : List Datum} {d : Datum} {n : Bytes} : n ∈ (Datum.list elems d).names ↔
    (∃ e ∈ elems, n ∈ e.names) ∨ n ∈ d.names := by
  induction elems with
  | nil => simp [Datum.list]
  | cons e elems ih =>
    have hcons : (Datum.list (e :: elems) d).names = e.names ++ (Datum.list elems d).names := rfl
    rw [hcons, List.mem_append, ih]
    simp [or_assoc]

/-- The elements so far are in the list. -/
theorem elems_of_parseListLoop {n : Nat} {elems : List Datum} {d : Datum} {r' : Reader}
    (hp : parseListLoop pf n elems r = .ok (d, r')) : ∃ more tail, d = .list (elems ++ more) tail := by
  induction n generalizing elems r with
  | zero => cases hp
  | succ n ih =>
    simp only [parseListLoop] at hp
    split at hp
    · cases hp
    · split at hp
      · cases hp
        exact ⟨[], .nil, by rw [List.append_nil]⟩
      · split at hp
        · split at hp
          · cases hp
          · obtain ⟨x, -, hp⟩ := parse_bind hp
            split at hp
            · cases hp
            · cases hp
              exact ⟨[], x.1.getD .nil, by rw [List.append_nil]⟩
        · obtain ⟨x, -, hp⟩ := parse_bind hp
          obtain ⟨more, tail, rfl⟩ := ih hp
          exact ⟨x.1.getD .nil :: more, tail, by rw [List.append_assoc, List.singleton_append]⟩

/-- A form's names are those of the datum in its place. -/
theorem names_getD {y : Option Datum} {n : Bytes} (h : n ∈ formNames y) : n ∈ (y.getD .nil).names := by
  cases y with
  | none => cases h
  | some d => exact h

theorem Interned.some {m : ML (Val × Reader)} {p : Parse (Datum × Reader)} (h : Interned S Datum.names m p) :
    Interned S formNames m (p >>= fun x => .ok (some x.1, x.2)) := by
  intro y r' hp
  obtain ⟨x, hx, hp⟩ := parse_bind hp
  cases hp
  exact h x.1 x.2 hx

include hc hd hm

theorem readListLoop_interned (sp : Nat) (head : Val) (n : Nat) {elems : List Datum} {d : Datum} {r' : Reader}
    (tail : Val) (r : Reader)
    (hp : parseListLoop pf n elems r = .ok (d, r')) (hnames : ∀ n ∈ d.names, n ∈ S) :
    Triple (Mode.noting fun _ => True) (State.Table S) (readListLoop c m sp head n tail r)
      (fun x s => x = r' ∧ s.Table S)
      (fun e _ => e ≠ .errNomem) := by
  have hback : ∀ {β : Type} {Q : β → State → Prop} {l k : Nat} {message : Bytes} {e : Status}, e ≠ .errNomem →
      Triple (Mode.noting fun _ => True) (State.Table S) ((raise l k message e : ML β).onErr (mlGcRestore sp)) Q
        (fun e _ => e ≠ .errNomem) := fun he => Triple.onErr (raise_table he)
  induction n generalizing elems tail r with
  | zero => cases hp
  | succ n ih =>
    have hall := elems_of_parseListLoop hp
    simp only [readListLoop, parseListLoop] at hp ⊢
    cases hpeek : (skipWsAndComments r).peek with
    | none =>
      rw [hpeek] at hp
      cases hp
    | some b =>
      simp only [hpeek] at hp ⊢
      by_cases hclose : b = ch ')'
      · rw [if_pos hclose] at hp ⊢
        cases hp
        exact .pure fun _ hs => ⟨rfl, hs⟩
      rw [if_neg hclose] at hp ⊢
      split at hp
      · rename_i hdot
        rw [if_pos hdot]
        split at hp
        · cases hp
        obtain ⟨⟨y, r₁⟩, hy, hp⟩ := parse_bind hp
        apply Triple.ite (fun _ => hback (by decide)) fun _ => ?_
        split at hp
        · cases hp
        rename_i hclose'
        cases hp
        have hsub : ∀ n ∈ formNames y, n ∈ S := fun n hn => hnames n (names_list.2 (.inr (names_getD hn)))
        apply Triple.bind (Triple.onErr (hm _ y r₁ hy hsub))
        rintro x s ⟨rfl, hs⟩
        apply wp_seq (setCdr_table (P := fun t => t.entries = S) s hs)
        intro _ t ht
        dsimp only
        rw [if_neg hclose']
        exact wp_pure ⟨rfl, ht⟩
      · rename_i hdot
        rw [if_neg hdot]
        obtain ⟨⟨y, r₁⟩, hy, hp⟩ := parse_bind hp
        obtain ⟨more, z, rfl⟩ := elems_of_parseListLoop hp
        have hsub : ∀ n ∈ formNames y, n ∈ S := by
          intro n hn
          apply hnames n (names_list.2 (.inl ⟨y.getD .nil, _, names_getD hn⟩))
          simp
        apply Triple.bind (Triple.onErr (hm _ y r₁ hy hsub))
        rintro x s ⟨rfl, hs⟩
        apply wp_seq (wp_onErr (mlGcProtect_table (P := fun t => t.entries = S) hc s hs))
        intro _ t ht
        have hcell : wp (Mode.noting fun _ => True) ((mlGcAllocPair c x.1 mvNil).andThen (mlGcUnprotect 1)) t
            (fun _ u => u.Table S) (fun e _ => e ≠ .errNomem) :=
          wp_andThen (gcAlloc_table (P := fun t => t.entries = S) hc hd (by decide) t ht)
        apply wp_seq (wp_onErr hcell)
        intro cell u hu
        apply wp_seq (setCdr_table (P := fun t => t.entries = S) u hu)
        exact fun _ w hw => ih cell x.2 hp w hw

theorem readList_interned (r : Reader) : Interned S Datum.names (readList c m r) (parseList c.maxReadDepth pf r) := by
  apply Interned.ite fun _ => .refuse
  intro _
  apply Interned.ite fun _ => .pure
  intro _ y r' hp hnames
  obtain ⟨⟨d, r₁⟩, hloop, hp⟩ := parse_bind hp
  cases hp
  intro s hs
  apply wp_bind (wp_gets _)
  apply wp_seq (gcAlloc_table (P := fun t => t.entries = S) hc hd (by decide) s hs)
  intro head t ht
  apply wp_seq (mlGcProtect_table (P := fun t => t.entries = S) hc t ht)
  intro _ u hu
  apply wp_bind (wp_mono (readListLoop_interned hc hd hm _ head _ head _ hloop hnames u hu) _ fun _ _ h => h)
  rintro r₂ w ⟨rfl, hw⟩
  apply wp_bind (wp_mono (cdr_wp False.elim) _ fun _ _ h => h)
  rintro out _ ⟨rfl, -⟩
  exact wp_bind (wp_modify (wp_pure ⟨rfl, hw⟩))

theorem readQuote_interned (r : Reader) : Interned S Datum.names (readQuote c m r) (parseQuote pf r) := by
  intro y r' hp hnames
  obtain ⟨⟨z, r₁⟩, hz, hp⟩ := parse_bind hp
  cases z with
  | none => cases hp
  | some d =>
    cases hp
    have hsub : ∀ n ∈ formNames (some d), n ∈ S := by
      intro n hn
      exact hnames n (names_list.2 (.inl ⟨d, by simp, hn⟩))
    apply Triple.bind (hm _ (some d) r' hz hsub)
    rintro x s ⟨rfl, hs⟩
    apply wp_ite (fun _ => raise_table (by decide) s hs) fun _ => ?_
    apply wp_bind (wp_gets _)
    apply wp_seq (mlGcProtect_table (P := fun t => t.entries = S) hc s hs)
    intro _ t ht
    apply wp_seq (wp_onErr (gcAlloc_table (P := fun t => t.entries = S) hc hd (by decide) t ht))
    intro inner u hu
    apply wp_bind (wp_modify _)
    apply wp_seq (mlGcProtect_table (P := fun t => t.entries = S) hc (mlGcUnprotect 1 u) hu)
    intro _ w hw
    have hout : wp (Mode.noting fun _ => True)
        ((mlGcAllocPair c c.symQuote inner).andThen (mlGcRestore s.gcProtect.length)) w
        (fun _ v => v.Table S) (fun e _ => e ≠ .errNomem) :=
      wp_andThen (gcAlloc_table (P := fun t => t.entries = S) hc hd (by decide) w hw)
    apply wp_seq hout
    exact fun _ _ hv => wp_pure ⟨rfl, hv⟩

omit hm in
theorem readForm_interned (n : Nat) (r : Reader) :
    Interned S formNames (readForm c n r) (parseForm c.maxReadDepth n r) := by
  induction n generalizing r with
  | zero => exact nofun
  | succ n ih =>
    simp only [readForm, parseForm]
    cases hpeek : (skipWsAndComments r).peek with
    | none => exact .pure
    | some b =>
      apply Interned.some
      simp only [parseDatum]
      refine .ite (fun _ => readList_interned hc hd ih _) fun _ => .ite (fun _ => .refuse) fun _ => ?_
      refine .ite (fun _ => readQuote_interned hc hd ih _) fun _ =>
        .ite (fun _ => readString_interned hc hd) fun _ => ?_
      refine .ite (fun _ => readHash_interned) fun _ => .ite (fun _ => readNumber_interned) fun _ => ?_
      by_cases hsign : (decide (b = ch '+') || decide (b = ch '-')) = true
      · rw [if_pos hsign]
        simp only [hsign, Bool.true_and]
        exact .ite (fun _ => readNumber_interned) fun _ => readSymbol_interned
      · rw [if_neg hsign, if_neg (by simp [hsign])]
        exact readSymbol_interned

omit hm in
theorem mlRead_interned (r : Reader) : Interned S formNames (mlRead c r) (parse c.maxReadDepth r) :=
  readForm_interned hc hd _ r

end Forms

/-- A read of a form whose names are all in the table, with an allocator that grants every
request, does not run out of memory. -/
theorem mlRead_known {c : Config} (hc : ∀ n size, c.alloc n size = true) {s : State} (hs : s.Ready c)
    {r r' : Reader} {y : Option Datum}
    (hp : parse c.maxReadDepth r = .ok (y, r')) (hnames : ∀ n ∈ formNames y, n ∈ s.symtab.entries) :
    (mlRead c r s).res ≠ .error (.err .errNomem) := by
  rw [(mlRead_collections c hc s hs r).1]
  intro hres
  have hk := (mlRead_interned (c := c.withoutCollections) hc (fun _ => rfl) r y r' hp hnames s rfl fun _ _ => id).2
  rw [hres] at hk
  exact hk rfl

end Microlisp
