import ShellLex.Proofs.Arithmetic.Balance
import ShellLex.Proofs.Calls
import ShellLex.Proofs.Lexemes
/-!
Arithmetic in which nothing is expanded or protected. No leaf of it has a parenthesis, and a group
takes one level, so reading it comes to what counting parentheses says.
-/
namespace ShellLex

def Literal (bytes : List UInt8) : Prop := 0x24 ∉ bytes ∧ 0x5C ∉ bytes

theorem Literal.drop {bytes : List UInt8} (h : Literal bytes) (size : Nat) :
    Literal (bytes.drop size) :=
  ⟨fun hm => h.1 (List.mem_of_mem_drop hm), fun hm => h.2 (List.mem_of_mem_drop hm)⟩

theorem Literal.role {b : UInt8} {bytes : List UInt8} (h : Literal (b :: bytes)) :
    role b ≠ .dollar ∧ role b ≠ .backslash := by
  refine ⟨fun hr => h.1 ?_, fun hr => h.2 ?_⟩
  · simp [Scan.eq_of_role.2.2.2.2 hr]
  · simp [Scan.eq_of_role.2.2.2.1 hr]

open Balance

namespace Lexeme

theorem parenless_of_accepted {accept : UInt8 → Bool} {data : List UInt8}
    (h : ∀ c ∈ data, accept c = true) (ho : accept 0x28 = false) (hc : accept 0x29 = false) :
    Parenless data := by
  intro c hm
  have ha := h c hm
  refine ⟨?_, ?_⟩ <;> rintro rfl
  · simp [ha] at ho
  · simp [ha] at hc

theorem Operand.parenless {data rest : List UInt8} (h : Operand data rest) : Parenless data := by
  cases h with
  | hexadecimal hs hd =>
    have prefixes : ∀ start ∈ ["0x", "0X"].map ascii, Parenless start := by decide
    intro c hm
    rcases List.mem_append.mp hm with hm | hm
    · exact prefixes _ hs c hm
    · exact parenless_of_accepted hd (by decide) (by decide) c hm
  | decimal h => exact parenless_of_accepted h.accepted (by decide) (by decide)
  | name h => exact parenless_of_accepted h.accepted (by decide) (by decide)

theorem Reference.dollar_mem {data rest : List UInt8} (h : Reference data rest) : 0x24 ∈ data := by
  cases h <;> exact List.mem_cons_self

end Lexeme

/-- No leaf of arithmetic has a parenthesis in it, unless it is protected. -/
theorem Lexes.parenless {before after : State} {bytes : List UInt8} {kind : Kind} {size : Nat}
    (h : Lexes (.element .arithmetic before after) bytes kind size) (hl : Literal bytes) :
    Parenless (bytes.take size) := by
  have shape : Lexeme.Shape .arithmetic kind (bytes.take size) (bytes.drop size) := h.shape rfl
  have literal : 0x24 ∉ bytes.take size := fun hm => hl.1 (List.mem_of_mem_take hm)
  cases h with
  | blanks => exact Lexeme.parenless_of_accepted shape.accepted (by decide) (by decide)
  | escape _ hb => exact absurd hb hl.role.2
  | arithmeticNewline =>
    have data : _ = ascii "\n" := shape
    rw [data]
    decide
  | number | name =>
    rcases shape with reference | ⟨_, operand⟩
    · exact absurd reference.dollar_mem literal
    · exact operand.parenless
  | arithmeticOperator =>
    have table : ∀ word ∈ Lexeme.arithmeticOperators, Parenless word := by decide
    exact table _ shape.mem
  | unknown =>
    obtain ⟨_, b, data, hb, _⟩ := shape
    rw [data]
    intro c hm
    obtain rfl := List.mem_singleton.mp hm
    refine ⟨?_, ?_⟩ <;> rintro rfl <;> exact absurd hb (by decide)

def Balance.Decision.Blames : Decision → LexError → Prop
  | .deep pos, e => e = ⟨.tooDeep nestingLimit, pos⟩
  | .closed _ _, _ => False
  | .unclosed, e => e.isTooDeep = false

namespace Scan

variable {source : List UInt8} {recalls : Prop} {levels : Nat} {s t : Scanner} {d : Delimiter}

def decision (levels : Nat) (s : Scanner) : Decision := sweep levels 0 s.pos s.rest

section Elements

structure Even (levels : Nat) (s t : Scanner) : Prop where
  literal : Literal t.rest
  decision_eq : decision levels t = decision levels s

def Sweeps (source : List UInt8) (recalls : Prop) (levels : Nat) : Prop :=
  ∀ s, s.Fits source recalls → Literal s.rest → Enclosure.arithmetic.Ready s →
    Ends (arithmeticPart (deeper levels)) s (fun _ t => Even levels s t)
      fun e _ => (decision levels s).Blames e

/-- What is the same behind the next bytes is the same of the scanner that skips them. -/
theorem eq_skip {α : Type} (f : (pos : Nat) → List UInt8 → α) {size : Nat}
    (hs : size ≤ s.rest.length)
    (h : f s.pos (s.rest.take size ++ s.rest.drop size) =
      f (s.pos + (s.rest.take size).length) (s.rest.drop size)) :
    f (s.skip size).pos (s.skip size).rest = f s.pos s.rest := by
  rw [List.take_append_drop, List.length_take_of_le hs] at h
  rw [h, Scanner.skip_pos hs, Scanner.skip_rest]

theorem leaves_even (hl : Literal s.rest) :
    Leaves (.element .arithmetic s.state s.state) s fun _ t => Even levels s t :=
  fun _ size h =>
    ⟨hl.drop size, eq_skip (sweep levels 0) h.bounds.2 (sweep_append (h.parenless hl))⟩

theorem body_sweeps (h : Sweeps source recalls levels) (hd : d.form = .arithmetic)
    (hs : s.Fits source recalls) (hl : Literal s.rest) :
    Ends (many d.goesOn (arithmeticPart (deeper levels))) s
      (fun _ t => Literal t.rest ∧ (t.rest = [] ∧ decision levels s = .unclosed ∨
        ∃ after, t.rest = 0x29 :: after ∧ decision levels s = .closed t.pos after))
      fun e _ => (decision levels s).Blames e := by
  let inv (_ : List Node) (t : Scanner) : Prop := Even levels s t
  have start : inv [] s := ⟨hl, rfl⟩
  refine (many_ends hs start ?_ ?_).imp ?_
  · intro t hm hr
    simp [Delimiter.goesOn, Scanner.role?, hr] at hm
  · intro nodes t ht _ hi hm
    have ready := ready_of_goesOn hm
    rw [hd] at ready
    have read := arithmeticPart_ends (deeper_obeys source recalls levels) ht ready
    refine (read.and (h t ht hi.literal ready)).mono ?_ ?_
    · rintro node u ⟨hu, even⟩
      exact ⟨hu.fits, hu.reads.lt_of_singleton, even.literal,
        even.decision_eq.trans hi.decision_eq⟩
    · rintro e u ⟨_, blames⟩
      rwa [hi.decision_eq] at blames
  · rintro nodes t ⟨ht, _, hm, hi⟩
    refine ⟨hi.literal, ?_⟩
    rw [← hi.decision_eq, decision]
    cases hr : t.rest with
    | nil => exact Or.inl ⟨rfl, rfl⟩
    | cons b bytes =>
      have hb : role b = .closeParen := by
        cases d <;> simp_all [Delimiter.goesOn, Delimiter.form, Scanner.role?_cons hr]
      obtain rfl := eq_of_role.2.2.1 hb
      exact Or.inr ⟨bytes, rfl, sweep_closed⟩

def bodyDecision (levels : Nat) (d : Delimiter) (s : Scanner) : Decision :=
  decision levels (s.skip d.opening.length)

theorem enclosure_sweeps (h : Sweeps source recalls levels) (hd : d.form = .arithmetic)
    (hs : s.Fits source recalls) (ho : d.opening <+: s.rest)
    (hl : Literal (s.skip d.opening.length).rest) :
    Ends (enclosure (deeper (levels + 1)) d) s
      (fun _ t => Literal t.rest ∧ ∃ pos after, bodyDecision levels d s = .closed pos after ∧
        0x29 :: after = d.closing ++ t.rest ∧ t.pos = pos + d.closing.length)
      fun e _ => (bodyDecision levels d s).Blames e ∨
        e.isTooDeep = false ∧ ∃ pos after, bodyDecision levels d s = .closed pos after ∧
          ¬ d.closing <+: 0x29 :: after := by
  have hne : d ≠ .commandSubstitution := by
    rintro rfl
    simp [Delimiter.form] at hd
  simp only [enclosure, deeper, ends_bind, ends_get, ends_opened_of_prefix ho, inBody_of_ne hne]
  rw [hd]
  refine (body_sweeps h hd (hs.skip _) hl).mono ?_ fun _ _ blames => Or.inl blames
  rintro nodes t ⟨hlt, ⟨hr, hv⟩ | ⟨after, hr, hv⟩⟩
  · -- At the end of the source nothing closes; the loop stops nowhere else but at a `)`.
    have hc : ¬ d.closing <+: t.rest := by
      rw [hr]
      cases d <;> decide
    rw [ends_closed_of_body fun _ => Or.inr hr, if_neg hc]
    refine Or.inl ?_
    rw [bodyDecision, hv]
    rfl
  · have closes : ¬ d.closing <+: t.rest → d = .arithmetic ∨ t.rest = [] := by
      intro hc
      cases d with
      | arithmetic => exact Or.inl rfl
      | arithmeticGroup => exact absurd ⟨after, hr.symm⟩ hc
      | doubleQuote | commandSubstitution => simp [Delimiter.form] at hd
    rw [ends_closed_of_body closes]
    split
    · rename_i hc
      refine ⟨hlt.drop _, t.pos, after, hv, ?_, Scanner.skip_pos hc.length_le⟩
      obtain ⟨rest, hrest⟩ := hc
      rw [← hr, Scanner.skip_rest, ← hrest, List.drop_left]
    · rename_i hc
      rw [hr] at hc
      exact Or.inr ⟨rfl, t.pos, after, hv, hc⟩

theorem decision_openParen {bytes : List UInt8} (hr : s.rest = 0x28 :: bytes) :
    decision (levels + 1) s =
      match bodyDecision levels .arithmeticGroup s with
      | .deep pos => .deep pos
      | .closed pos after => sweep (levels + 1) 0 (pos + 1) after
      | .unclosed => .unclosed := by
  have one : Delimiter.arithmeticGroup.opening.length = 1 := rfl
  have hpos : (s.skip 1).pos = s.pos + 1 := Scanner.skip_pos (by simp [hr])
  rw [decision, hr, sweep_open (Nat.succ_ne_zero _).symm, sweep_succ (Nat.zero_le _), bodyDecision,
    decision, one, hpos, Scanner.skip_rest, hr]
  rfl

/-- A group takes one level, and is deep where none is left. -/
theorem group_sweeps {bytes : List UInt8}
    (h : ∀ below, levels = below + 1 → Sweeps source recalls below) (hs : s.Fits source recalls)
    (hl : Literal s.rest) (hr : s.rest = 0x28 :: bytes) :
    Ends (enclosure (deeper levels) .arithmeticGroup) s (fun _ t => Even levels s t)
      fun e _ => (decision levels s).Blames e := by
  have ho : Delimiter.arithmeticGroup.opening <+: s.rest := by
    rw [hr]
    exact ⟨bytes, rfl⟩
  cases levels with
  | zero =>
    simp only [enclosure, deeper, ends_bind, ends_get, ends_opened_of_prefix ho, ends_fail, decision,
      hr]
    rw [sweep_deep]
    rfl
  | succ below =>
    refine (enclosure_sweeps (h below rfl) rfl hs ho (hl.drop _)).mono ?_ ?_
    · rintro node t ⟨hlt, pos, after, hv, hc, hp⟩
      obtain rfl : after = t.rest := (List.cons.inj hc).2
      refine ⟨hlt, ?_⟩
      rw [decision_openParen hr, hv, decision, hp]
      rfl
    · rintro e t (blames | ⟨_, pos, after, _, hc⟩)
      · rw [decision_openParen hr]
        cases hv : bodyDecision below .arithmeticGroup s <;> simp_all [Decision.Blames]
      · exact absurd ⟨after, rfl⟩ hc

theorem arithmeticPart_sweeps (source : List UInt8) (recalls : Prop) (levels : Nat) :
    Sweeps source recalls levels := by
  -- On the levels left, of which a group takes one; every other element is a leaf.
  induction levels using Nat.strongRecOn with
  | ind levels ih =>
  rintro s hs hl ⟨r, hrole, hne⟩
  obtain ⟨b, bytes, hr, rfl⟩ := Scanner.role?_eq_some hrole
  apply arithmeticPart_rule hr hne (leaves_even hl)
  · intro hb
    exact absurd hb (hr ▸ hl).role.1
  · intro hb
    obtain rfl := eq_of_role.2.1 hb
    refine group_sweeps ?_ hs hl hr
    rintro below rfl
    exact ih below (Nat.lt_succ_self _)

end Elements

end Scan

end ShellLex
