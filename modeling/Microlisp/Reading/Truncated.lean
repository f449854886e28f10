import Microlisp.Reading.Room
import Microlisp.Truncated
/-!
# What a truncated read means

`MICROLISP_ERR_READ_TRUNCATED` asks for more input, and is right to: there is a text that
starts so. But a text cut short in one of three places is reported as a syntax error.
-/
namespace Microlisp

open Prog Reader

theorem start_append {p q : Bytes} : Reader.start (p ++ q) = (Reader.start p).more q := rfl

/-- A failed read is reported as truncated exactly when the input is the start of one that
reads, unless the input is cut short. -/
theorem mlRead_truncated (c : Config) (hc : ∀ n size, c.alloc n size = true) (s : State) (hs : s.Ready c) (p : Bytes)
    (hroom : s.Room (3 * p.length + 3)) (e : Status) (hfail : (mlRead c (.start p) s).res = .error (.err e))
    (hdepth : e ≠ .errReadDepth) :
    (e = .errReadTruncated ↔ ∃ q x, (mlRead c (.start (p ++ q)) s).res = .ok x) ↔
      ¬ CutShort c.maxReadDepth (.start p) := by
  have hparse : ∃ record, parse c.maxReadDepth (.start p) = .error (.error e record) := by
    rcases mlRead_cases hs (.start p) with ⟨v, r', y, hok, -⟩ | ⟨e', hres, he⟩
    · rw [hfail] at hok
      cases hok
    · rw [hfail] at hres
      cases hres
      rcases he with rfl | he
      · have hsmall : s.Room (Reader.start p).rest.length := hroom.mono (show p.length ≤ 3 * p.length + 3 by omega)
        exact absurd hfail (mlRead_granted hc hs hsmall)
      · exact ⟨_, he⟩
  obtain ⟨record, hp⟩ := hparse
  have hcompletes : e = .errReadTruncated ∨ CutShort c.maxReadDepth (.start p) →
      ∃ q x, (mlRead c (.start (p ++ q)) s).res = .ok x := by
    intro h
    obtain ⟨q, d, r', hlen, hok⟩ := parse_completes hp h
    have hlen' : q.length ≤ 3 + 2 * p.length := hlen
    rcases mlRead_cases hs (.start (p ++ q)) with ⟨v, r'', y, hres, -⟩ | ⟨e', hres, he⟩
    · exact ⟨q, _, hres⟩
    · rcases he with rfl | he
      · have hsmall : s.Room (Reader.start (p ++ q)).rest.length := by
          apply hroom.mono
          show (p ++ q).length ≤ _
          rw [List.length_append]
          omega
        exact absurd hres (mlRead_granted hc hs hsmall)
      · rw [start_append, hok] at he
        cases he
  constructor
  · intro hiff hcut
    obtain ⟨record', hcut'⟩ := hcut.refused
    rw [hcut'] at hp
    cases hp
    cases hiff.2 (hcompletes (.inr hcut))
  · intro hcut
    refine ⟨fun he => hcompletes (.inl he), ?_⟩
    rintro ⟨q, x, hok⟩
    by_contra he
    obtain ⟨x', hx'⟩ := parse_more_refused hp he hdepth hcut q
    rcases mlRead_cases hs (.start (p ++ q)) with ⟨v, r'', y, -, hok', -⟩ | ⟨e', hres, -⟩
    · rw [start_append, hx'] at hok'
      cases hok'
    · rw [hok] at hres
      cases hres

theorem mlRead_truncated_list : (Status.errReadTruncated = .errReadTruncated ↔
      ∃ q x, (mlRead .created (.start (ascii "(#t" ++ q)) .created).res = .ok x) ↔
        ¬ CutShort 256 (.start (ascii "(#t")) :=
  mlRead_truncated .created (fun _ _ => rfl) .created (State.created_ready rfl rfl) (ascii "(#t") (by decide) _
    (by decide +kernel) (by decide)

/-- `#` is reported as a syntax error, though `#t` reads. -/
theorem mlRead_truncated_hash : ¬ ∀ (c : Config) (s : State) (p : Bytes) (e : Status),
    (∀ n size, c.alloc n size = true) →
    s.Ready c → s.Room (3 * p.length + 3) → (mlRead c (.start p) s).res = .error (.err e) → e ≠ .errReadDepth →
    (e = .errReadTruncated ↔ ∃ q x, (mlRead c (.start (p ++ q)) s).res = .ok x) := by
  intro h
  have hhash := h .created .created (ascii "#") .errReadSyntax (fun _ _ => rfl)
    (State.created_ready rfl rfl) (by decide)
    (by decide +kernel) (by decide)
  have hread : (mlRead .created (.start (ascii "#" ++ ascii "t")) .created).res
      = .ok (mvTrue, (Reader.start (ascii "#t")).eat (ascii "#t")) := by decide +kernel
  cases hhash.2 ⟨_, _, hread⟩

end Microlisp
