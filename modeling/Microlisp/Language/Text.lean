import Microlisp.Language.Primitives
/-!
# Printed values

The printer gives any sink the text of a value, chunk by chunk, unless it goes too deep or the sink
refuses a chunk. What a sink has been given is told by a relation, one for the stream and one for
the buffer of a result.
-/
namespace Microlisp

open Prog Microlisp.Language

/-! ## Sinks -/

/-- `rel u s text u' s'` says that the sink, with the data `u` in the state `s`, has taken the text and
has come to `u'` and `s'`. -/
structure Sink.Takes {β : Type} (out : Sink β) (rel : β → State → Bytes → β → State → Prop) : Prop where
  nil : ∀ {u s}, rel u s [] u s
  append : ∀ {u s text u' s' text' u'' s''}, rel u s text u' s' → rel u' s' text' u'' s'' →
    rel u s (text ++ text') u'' s''
  keeps : ∀ {u s text u' s'}, rel u s text u' s' → s'.heap = s.heap ∧ s'.symtab = s.symtab ∧
    s'.printDepth = s.printDepth
  deeper : ∀ {u s text u' s'}, rel u { s with printDepth := s.printDepth + 1 } text u' s' →
    rel u s text u' (leavePrint s')
  put : ∀ u s bytes, wp Mode.fully (out u bytes) s (rel u s bytes) fun e _ => e.isLimit = true

/-- With this heap and these symbols, at depth `k` of the printer, `m` gives the sink the text. -/
def Puts {β : Type} (rel : β → State → Bytes → β → State → Prop) (h : Heap) (names : List Bytes) (k : Nat)
    (m : β → ML β) (text : Bytes) : Prop :=
  ∀ u s, s.heap = h → s.symtab.entries = names → s.printDepth = k → wp Mode.fully (m u) s (rel u s text) fun e _ =>
    e.isLimit = true

section Puts
variable {α β : Type} {rel : β → State → Bytes → β → State → Prop} {out : Sink β} (hout : out.Takes rel) {h : Heap}
    {names : List Bytes} {k : Nat}
  {m f : β → ML β} {text text' : Bytes} {fs : List Nat} {x : Value} {v : Val} {style : Bool} {c : Config}

/-- A look at the heap. -/
theorem Puts.look {r : ML α} {a : α} {g : α → β → ML β}
    (hr : ∀ (s : State) (f : α → ML β), s.heap = h → s.symtab.entries = names → (r >>= f) s = f a s)
    (hg : Puts rel h names k (g a) text) :
    Puts rel h names k (fun u => r >>= fun a => g a u) text := by
  intro u s hheap hnames hdepth
  exact wp_of_run (hr s _ hheap hnames) (hg u s hheap hnames hdepth)

/-- Tests of objects, as `isObjType_run` answers them. -/
theorem Puts.test {r : ML Bool} {b : Bool} {g : Bool → β → ML β}
    (hr : ∀ (s : State) (f : Bool → ML β), s.Stands fs x v → (r >>= f) s = f b s) (hv : h.Stands names fs x v)
    (hg : Puts rel h names k (g b) text) : Puts rel h names k (fun u => r >>= fun b => g b u) text := by
  apply Puts.look _ hg
  rintro s f rfl rfl
  exact hr s f hv

include hout

theorem puts_emit : Puts rel h names k (fun u => emitTo out u text) text := by
  intro u s _ _ _
  apply wp_ite
  · rintro rfl
    exact wp_pure hout.nil
  · exact fun _ => hout.put u s text

theorem puts_nothing : Puts rel h names k pure [] := fun _ _ _ _ _ => wp_pure hout.nil

theorem Puts.bind (hm : Puts rel h names k m text) (hf : Puts rel h names k f text') :
    Puts rel h names k (fun u => m u >>= f) (text ++ text') := by
  rintro u s rfl rfl rfl
  apply wp_seq (hm u s rfl rfl rfl)
  intro u' s' hrel
  obtain ⟨hheap, hsymtab, hdepth⟩ := hout.keeps hrel
  apply wp_mono (hf u' s' hheap (by rw [hsymtab]) hdepth) _ fun _ _ h => h
  exact fun u'' s'' hrel' => hout.append hrel hrel'

/-! ## Atoms -/

theorem emitQuotedLoop_puts (bs run : Bytes) :
    Puts rel h names k (emitQuotedLoop out bs run) (run ++ bs.flatMap Value.quoteByte) := by
  induction bs generalizing run with
  | nil =>
    rw [List.flatMap_nil, List.append_nil]
    exact puts_emit hout
  | cons b bs ih =>
    intro u s hheap hnames hdepth
    apply wp_ite
    · intro hb
      have htext : run ++ (b :: bs).flatMap Value.quoteByte = run ++
          (escapeOf b ++ ([] ++ bs.flatMap Value.quoteByte)) := by
        simp [Value.quoteByte, hb]
      rw [htext]
      exact ((puts_emit hout).bind hout ((puts_emit hout).bind hout (ih []))) u s hheap hnames hdepth
    · intro hb
      have htext : run ++ (b :: bs).flatMap Value.quoteByte = run ++ [b] ++ bs.flatMap Value.quoteByte := by
        simp [Value.quoteByte, hb]
      rw [htext]
      exact ih (run ++ [b]) u s hheap hnames hdepth

theorem emitStringQuoted_puts {bytes : Bytes} :
    Puts rel h names k (fun u => emitStringQuoted out u bytes) ((Value.str bytes).atomText true) := by
  have htext : (Value.str bytes).atomText true = [ch '"'] ++ ([] ++ bytes.flatMap Value.quoteByte ++ [ch '"']) := by
    simp [Value.atomText]
  rw [htext]
  exact (puts_emit hout).bind hout ((emitQuotedLoop_puts hout bytes []).bind hout (puts_emit hout))

/-- What is no pair. -/
theorem printAtom_puts {pv : Val → β → ML β} (hv : h.Stands names fs x v) (hatom : x.isPair = false) :
    Puts rel h names k (printValueInner out style pv v) (x.atomText style) := by
  cases x with
  | fix i =>
    obtain ⟨hi, rfl⟩ := hv
    have hvalue : mlFixInt (BitVec.ofInt 61 i) = i := mlFixInt_ofInt (by simpa [fitsFixnum] using hi)
    show Puts rel h names k (fun u => emitInt out u (mlFixInt (BitVec.ofInt 61 i))) _
    rw [hvalue]
    exact puts_emit hout
  | undef =>
    cases hv
    exact puts_emit hout
  | nil =>
    cases hv
    exact puts_emit hout
  | bool b =>
    cases hv
    cases b <;> exact puts_emit hout
  | sym name =>
    obtain ⟨i, rfl, hfind⟩ := hv
    obtain ⟨hlt, hname, -⟩ := List.findIdx?_eq_some_iff_getElem.1 hfind
    apply Puts.look (a := name) _ (puts_emit hout)
    rintro s f - rfl
    unfold mlSymName
    rw [gets_bind_run, Symtab.name, List.getElem?_eq_getElem hlt, ← beq_iff_eq.1 hname]
    rfl
  | str bytes =>
    obtain ⟨a, o, rfl, -⟩ := hv.obj rfl
    apply Puts.test (fun s f hv => mlIsString_stands hv) hv
    apply Puts.look (a := bytes)
    · rintro s f rfl -
      exact stringBytes_run hv
    · cases style with
      | true => exact emitStringQuoted_puts hout
      | false => exact puts_emit hout
  | closure params rest body env =>
    obtain ⟨a, o, rfl, -⟩ := hv.obj rfl
    apply Puts.test (fun s f hv => mlIsString_stands hv) hv
    apply Puts.test (fun s f hv => mlIsPair_stands hv) hv
    apply Puts.test (fun s f hv => mlIsPrim_stands hv) hv
    apply Puts.test (fun s f hv => mlIsClosure_stands hv) hv
    exact puts_emit hout
  | prim name fn arityMin arityMax =>
    obtain ⟨a, o, rfl, -⟩ := hv.obj rfl
    apply Puts.test (fun s f hv => mlIsString_stands hv) hv
    apply Puts.test (fun s f hv => mlIsPair_stands hv) hv
    apply Puts.test (fun s f hv => mlIsPrim_stands hv) hv
    apply Puts.look (a := ⟨name, fn, arityMin, arityMax⟩)
    · rintro s f rfl -
      have ho : s.heap.Has (.obj a) (Primitive.obj ⟨name, fn, arityMin, arityMax⟩) := hv
      exact primFields_run ho
    · exact puts_emit hout
  | pair => cases hatom

/-! ## Pairs -/

/-- A call of the printer: one level down, and back. -/
theorem printValue_puts {n : Nat} (hinner : k < c.maxPrintDepth →
      Puts rel h names (k + 1) (printValueInner out style (printValue out c style n) v) text) :
    Puts rel h names k (printValue out c style (n + 1) v) text := by
  rintro u s rfl rfl rfl
  apply wp_bind (wp_gets _)
  apply wp_ite
  · exact fun _ => wp_bind (wp_modify (wp_fail rfl))
  · intro hdepth
    refine wp_bind (wp_modify (wp_andThen ?_))
    apply wp_mono (hinner (by omega) u { s with printDepth := s.printDepth + 1 } rfl rfl rfl) _ fun _ _ h => h
    exact fun _ _ hrel => hout.deeper hrel

/-- The end of a spine. -/
theorem printEnd_puts {n bound : Nat} (hv : h.Stands names fs x v) (hatom : x.isPair = false)
    (hvalue : Puts rel h names k (printValue out c style n v) (x.atomText style)) :
    Puts rel h names k (printSpine out (printValue out c style n) (bound + 1) v) (x.textRest style) := by
  apply Puts.test (fun s f hv => mlIsPair_stands hv) hv
  rw [hatom]
  by_cases hnil : x = .nil
  · subst hnil
    cases hv
    exact puts_nothing hout
  · have hne : v ≠ mvNil := fun h => hnil ((Heap.Stands.nil_iff hv).1 h)
    have htext : x.textRest style = [ch ' ', ch '.', ch ' '] ++ x.atomText style := by
      cases x <;> first | rfl | exact absurd rfl hnil | cases hatom
    rw [htext]
    simp only [Bool.false_eq_true, if_false, if_pos hne]
    exact (puts_emit hout).bind hout hvalue

theorem atom_puts (hv : h.Stands names fs x v) (hatom : x.isPair = false) :
    (∀ n k, 0 < n → Puts rel h names k (printValue out c style n v) (x.text style)) ∧
    ∀ n k bound, 0 < n → x.cells < bound → Puts rel h names k (printSpine out (printValue out c style n) bound v)
      (x.textRest style) := by
  have htext : x.text style = x.atomText style := by
    cases x <;> first | rfl | cases hatom
  have hvalue : ∀ n k, 0 < n → Puts rel h names k (printValue out c style n v) (x.atomText style) := by
    intro n k hn
    obtain ⟨n, rfl⟩ := Nat.exists_eq_add_one.2 hn
    exact printValue_puts hout fun _ => printAtom_puts hout hv hatom
  refine ⟨fun n k hn => htext ▸ hvalue n k hn, fun n k bound hn hb => ?_⟩
  obtain ⟨bound, rfl⟩ := Nat.exists_eq_add_one.2 (Nat.zero_lt_of_lt hb)
  exact printEnd_puts hout hv hatom (hvalue n k hn)

theorem value_puts (hv : h.Stands names fs x v) :
    (∀ n k, 0 < n → c.maxPrintDepth < k + n → Puts rel h names k (printValue out c style n v) (x.text style)) ∧
    ∀ n k bound, 0 < n → c.maxPrintDepth < k + n → x.cells < bound →
      Puts rel h names k (printSpine out (printValue out c style n) bound v) (x.textRest style) := by
  induction x generalizing v with
  | pair a d iha ihd =>
    obtain ⟨p, q, ho, hp, hq⟩ := id hv
    obtain ⟨hcar, -⟩ := iha hp
    obtain ⟨-, hcdr⟩ := ihd hq
    obtain ⟨w, hspine, hends⟩ := Heap.Stands.spine hq
    constructor
    · intro n k hn hmax
      obtain ⟨n, rfl⟩ := Nat.exists_eq_add_one.2 hn
      apply printValue_puts hout
      intro hk
      have htext : (Value.pair a d).text style = [ch '('] ++ ((a.text style ++ d.textRest style) ++ [ch ')']) := by
        simp [Value.text]
      rw [htext]
      obtain ⟨b, rfl, -⟩ := id ho
      apply Puts.test (fun s f hv => mlIsString_stands hv) hv
      apply Puts.test (fun s f hv => mlIsPair_stands hv) hv
      apply (puts_emit hout).bind hout
      apply Puts.bind hout _ (puts_emit hout)
      apply Puts.look (a := p)
      · rintro s f rfl -
        exact car_run ho
      apply (hcar n (k + 1) (by omega) (by omega)).bind hout
      apply Puts.look (a := q)
      · rintro s f rfl -
        exact cdr_run ho
      apply Puts.look (a := h.next + 1)
      · rintro s f rfl -
        exact gets_bind_run
      exact hcdr n (k + 1) _ (by omega) (by omega) (Nat.lt_succ_of_lt (hspine.lt_next hends))
    · intro n k bound hn hmax hb
      simp only [Value.cells] at hb
      obtain ⟨bound, rfl⟩ := Nat.exists_eq_add_one.2 (Nat.zero_lt_of_lt hb)
      have htext : (Value.pair a d).textRest style = [ch ' '] ++ (a.text style ++ d.textRest style) := by
        simp [Value.textRest]
      rw [htext]
      apply Puts.test (fun s f hv => mlIsPair_stands hv) hv
      apply (puts_emit hout).bind hout
      apply Puts.look (a := p)
      · rintro s f rfl -
        exact car_run ho
      apply (hcar n k hn hmax).bind hout
      apply Puts.look (a := q)
      · rintro s f rfl -
        exact cdr_run ho
      exact hcdr n k bound hn hmax (by omega)
  | _ =>
    obtain ⟨hvalue, hrest⟩ := atom_puts hout hv rfl
    exact ⟨fun n k hn _ => hvalue n k hn, fun n k bound hn _ hb => hrest n k bound hn hb⟩

/-- `ml_print`. -/
theorem mlPrint_puts {s : State} {u : β} (hv : s.Stands fs x v) (hdepth : s.printDepth = 0) :
    wp Mode.fully (mlPrint out c v style u) s (rel u s (x.text style)) fun e _ => e.isLimit = true :=
  wp_bind (wp_gets ((value_puts hout hv).1 _ _ (by omega) (by omega) u s rfl rfl rfl))

end Puts

/-! ## The stream and the buffer -/

/-- Bytes have been written to the stream. -/
def Wrote (_ : Unit) (s : State) (text : Bytes) (_ : Unit) (t : State) : Prop :=
  Unaltered { s with output := s.output ++ text } t

theorem stateOutputSink_takes (c : Config) : (stateOutputSink c).Takes Wrote where
  nil := ⟨rfl, rfl, (List.append_nil _).symm, rfl, rfl⟩
  append h h' := ⟨h'.heap.trans h.heap, h'.symtab.trans h.symtab, by rw [h'.output, h.output, List.append_assoc],
    h'.printDepth.trans h.printDepth, h'.equalDepth.trans h.equalDepth⟩
  keeps h := ⟨h.heap, h.symtab, h.printDepth⟩
  deeper h := ⟨h.heap, h.symtab, h.output, by simp [leavePrint, h.printDepth], h.equalDepth⟩
  put := by
    intro u s bytes
    refine wp_bind (wp_gets (wp_bind (wp_modify ?_)))
    apply wp_ite
    · exact fun _ => wp_fail rfl
    · intro htaken
      rw [not_not] at htaken
      refine wp_pure ⟨rfl, rfl, ?_, rfl, rfl⟩
      simp [htaken]

theorem rawAllocOrFail_limit {c : Config} {size : Nat} {s : State} :
    wp Mode.fully (rawAllocOrFail c size) s (fun _ t => Unaltered s t) fun e _ => e.isLimit = true := by
  apply wp_mono rawAllocOrFail_wp
  · intro _ t ht
    rw [ht]
    exact ⟨rfl, rfl, rfl, rfl, rfl⟩
  · rintro _ _ ⟨rfl, -⟩
    rfl

/-- Bytes have been added to the buffer. -/
def Gathered (pb : PrintBuf) (s : State) (text : Bytes) (pb' : PrintBuf) (t : State) : Prop :=
  pb'.bytes = pb.bytes ++ text ∧ Unaltered s t

theorem printBufSink_takes (c : Config) : (printBufSink c).Takes Gathered where
  nil := ⟨(List.append_nil _).symm, ⟨rfl, rfl, rfl, rfl, rfl⟩⟩
  append h h' := ⟨by rw [h'.1, h.1, List.append_assoc], h.2.trans h'.2⟩
  keeps h := ⟨h.2.heap, h.2.symtab, h.2.printDepth⟩
  deeper h := ⟨h.1, h.2.heap, h.2.symtab, h.2.output, by simp [leavePrint, h.2.printDepth], h.2.equalDepth⟩
  put := by
    intro pb s bytes
    apply wp_ite
    · exact fun _ => wp_fail rfl
    · intro _
      apply wp_ite
      · intro _
        split
        · exact wp_fail rfl
        · apply wp_seq rawAllocOrFail_limit
          exact fun _ _ hq => wp_pure ⟨rfl, hq⟩
      · exact fun _ => wp_pure ⟨rfl, ⟨rfl, rfl, rfl, rfl, rfl⟩⟩

/-! ## Printing -/

section Printing
variable {c : Config} {fs : List Nat} {w : World} {s : State} {x : Value} {v : Val}

/-- The result of a call, in its buffer. -/
theorem mlPrintToAlloc_stands (hI : s.Depicts fs w) (hv : s.Stands fs x v) :
    wp Mode.fully (mlPrintToAlloc c v true) s (fun bytes t => bytes = x.text true ∧ Unaltered s t) fun e _ =>
      e.isLimit = true := by
  apply wp_seq (mlPrint_puts (printBufSink_takes c) hv hI.printDepth)
  rintro pb t ⟨hbytes, hq⟩
  rw [List.nil_append] at hbytes
  apply wp_ite
  · intro _
    apply wp_seq rawAllocOrFail_limit
    exact fun _ u hu => wp_pure ⟨hbytes, hq.trans hu⟩
  · exact fun _ => wp_pure ⟨hbytes, hq⟩

/-- What has been written is in the output of the world. -/
theorem State.Depicts.wrote {text : Bytes} {t : State} (hI : s.Depicts fs w) (h : Wrote () s text () t) :
    Onward fs s fs t ∧ t.Depicts fs { w with output := w.output ++ text } := by
  have hon : Onward fs s fs { s with output := s.output ++ text } :=
    ⟨List.prefix_refl _, (Onward.refl : Onward fs s fs s).heap, rfl⟩
  refine ⟨hon.quiet h, State.Depicts.quiet ?_ h⟩
  exact { hI with output := congrArg (· ++ text) hI.output }

theorem stateOutputFlush_limit {E : State → Prop} (hE : ∀ t, Unaltered s t → E t) :
    wp Mode.fully (stateOutputFlush c) s (fun _ t => E t) fun e _ => e.isLimit = true := by
  refine wp_bind (wp_gets (wp_bind (wp_modify ?_)))
  apply wp_ite
  · exact fun _ => wp_pure (hE _ ⟨rfl, rfl, rfl, rfl, rfl⟩)
  · exact fun _ => wp_fail rfl

theorem write_tells {text : Bytes} {m : ML Unit}
    (hm : s.Depicts fs w → wp Mode.fully m s (fun _ t => Wrote () s text () t) fun e _ => e.isLimit = true) :
    Tells State.Stands (Language.write text) (do m; stateOutputFlush c; pure mvUndef : ML Val) fs w s := by
  apply Corresponds.of_fully rfl (F := fun e _ => e.isLimit = true) _ fun e _ he => ⟨e, rfl, he⟩
  intro hI
  apply wp_seq (hm hI)
  intro _ t ht
  apply wp_seq (stateOutputFlush_limit (E := fun u => Unaltered t u) fun _ h => h)
  intro _ u hu
  obtain ⟨hon, hdepicts⟩ := hI.wrote ht
  exact wp_pure ⟨fs, hon.quiet hu, hdepicts.quiet hu, rfl⟩

theorem printAndFlush_tells {style : Bool} (hv : s.Stands fs x v) :
    Tells State.Stands (Language.write (x.text style)) (printAndFlush c style [v]) fs w s :=
  write_tells fun hI => mlPrint_puts (stateOutputSink_takes c) hv hI.printDepth

theorem primNewline_tells : Tells State.Stands (Language.write [ch '\n']) (primNewline c []) fs w s :=
  write_tells fun _ => (stateOutputSink_takes c).put () s [ch '\n']

end Printing

/-! ## All primitives -/

/-- Other numbers of arguments are not the language's: a call has refused them. -/
theorem prim_one {xs : List Value} (hlen : xs.length ≠ 1) : prim .car xs = unspecified ∧ prim .cdr xs = unspecified ∧
    prim .length xs = unspecified ∧ prim .display xs = unspecified ∧ prim .write xs = unspecified := by
  cases xs with
  | nil => exact ⟨rfl, rfl, rfl, rfl, rfl⟩
  | cons x xs =>
    cases xs with
    | nil => exact absurd rfl hlen
    | cons y xs => cases x <;> exact ⟨rfl, rfl, rfl, rfl, rfl⟩

theorem prim_two {xs : List Value} (hlen : xs.length ≠ 2) : prim .quotient xs = unspecified ∧
    prim .remainder xs = unspecified ∧
    prim .modulo xs = unspecified ∧ prim .cons xs = unspecified ∧ prim .eqP xs = unspecified ∧
      prim .eqvP xs = unspecified ∧
    prim .equalP xs = unspecified := by
  match xs with
  | [] => exact ⟨rfl, rfl, rfl, rfl, rfl, rfl, rfl⟩
  | [_] => exact ⟨rfl, rfl, rfl, rfl, rfl, rfl, rfl⟩
  | [_, _] => exact absurd rfl hlen
  | _ :: _ :: _ :: _ => exact ⟨rfl, rfl, rfl, rfl, rfl, rfl, rfl⟩

theorem prims_tell {c : Config} (hc : ∀ n size, c.alloc n size = true) (hd : ∀ s, c.collectDue s = false) :
    PrimsTell c := by
  intro fs w s fn xs argv hargs
  cases fn with
  | add => exact foldNum_tells hargs (by decide) fun _ => makeFix_tells
  | mul => exact foldNum_tells hargs (by decide) fun _ => makeFix_tells
  | sub => exact primSub_tells hargs
  | div => exact primDiv_tells hargs
  | quotient => exact two_tells hargs (fun _ h => (prim_two h).1) fun _ _ _ _ => primQuotient_tells
  | remainder => exact two_tells hargs (fun _ h => (prim_two h).2.1) fun _ _ _ _ => primRemainder_tells
  | modulo => exact two_tells hargs (fun _ h => (prim_two h).2.2.1) fun _ _ _ _ => primModulo_tells
  | numEq => exact compare_tells hargs
  | numLt => exact compare_tells hargs
  | numGt => exact compare_tells hargs
  | numLe => exact compare_tells hargs
  | numGe => exact compare_tells hargs
  | cons => exact two_tells hargs (fun _ h => (prim_two h).2.2.2.1) fun _ _ _ _ => pair_tells hc hd
  | car => exact one_tells hargs (fun _ h => (prim_one h).1) fun _ _ => primCar_tells
  | cdr => exact one_tells hargs (fun _ h => (prim_one h).2.1) fun _ _ => primCdr_tells
  | list => exact primList_tells hc hd hargs
  | length => exact one_tells hargs (fun _ h => (prim_one h).2.2.1) fun _ _ => primLength_tells
  | nullP => exact test_tells hargs fun _ _ hv _ => (Heap.Stands.kind hv).1 ▸ pure_bind_run
  | pairP => exact test_tells hargs fun _ _ hv _ => mlIsPair_stands hv
  | numberP => exact test_tells hargs fun _ _ hv _ => (Heap.Stands.kind hv).2.1 ▸ pure_bind_run
  | symbolP => exact test_tells hargs fun _ _ hv _ => (Heap.Stands.kind hv).2.2.1 ▸ pure_bind_run
  | stringP => exact test_tells hargs fun _ _ hv _ => mlIsString_stands hv
  | procedureP => exact test_tells hargs fun _ _ hv _ => mlIsProcedure_stands hv
  | booleanP => exact test_tells hargs fun _ _ hv _ => (Heap.Stands.kind hv).2.2.2 ▸ pure_bind_run
  | not => exact test_tells hargs fun _ _ hv _ => Heap.Stands.truthy hv ▸ pure_bind_run
  | eqP => exact two_tells hargs (fun _ h => (prim_two h).2.2.2.2.1) fun _ _ _ _ => primEqP_tells
  | eqvP => exact two_tells hargs (fun _ h => (prim_two h).2.2.2.2.2.1) fun _ _ _ _ => primEqvP_tells
  | equalP => exact two_tells hargs (fun _ h => (prim_two h).2.2.2.2.2.2) fun _ _ _ _ => primEqualP_tells
  | display => exact one_tells hargs (fun _ h => (prim_one h).2.2.2.1) fun _ _ => printAndFlush_tells
  | write => exact one_tells hargs (fun _ h => (prim_one h).2.2.2.2) fun _ _ => printAndFlush_tells
  | newline =>
    cases hargs with
    | nil => exact primNewline_tells
    | cons => exact tells_unspecified
  | error => exact primError_tells hargs

end Microlisp
