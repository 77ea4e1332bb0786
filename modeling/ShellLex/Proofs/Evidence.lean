import ShellLex.Proofs.Calls
/-!
What an error points at. Wherever it comes from, an attempt that was given up or a table that kept
it, its offset lies in what was not read before the call, and the source has there what the error
says.
-/
namespace ShellLex

def Lexeme.special : List UInt8 := ascii ";&|()<>!\x7b\x7d\"$\\"

/-- What the source has at the offset of an error, with the lexer left at `stop`. -/
def Cause.Evidence (source : List UInt8) (pos stop : Nat) : Cause → Prop
  | .unexpected found => stop = pos ∧
      ∃ b ∈ Lexeme.special, source[pos]? = some b ∧ found = Char.ofNat b.toNat
  | .expectedIn got => pos < stop ∧
      source.extract pos stop = (source.drop pos).takeWhile isPlain ∧
      source.extract pos stop ≠ ascii "in" ∧
      got = String.ofList (Utf8.lossy (source.extract pos stop))
  | .unsupported _ => stop = pos ∧ ascii "$\x7b" <+: source.drop pos
  | .unterminated .doubleQuote => stop = source.length ∧ ascii "\"" <+: source.drop pos
  | .unterminated .commandSubstitution => stop = source.length ∧ ascii "$(" <+: source.drop pos
  | .unterminated .arithmetic | .unterminated .arithmeticGroup => False
  | .tooDeep limit => limit = 64 ∧
      (ascii "\"" <+: source.drop pos ∨ ascii "$(" <+: source.drop pos ∨
        ascii "(" <+: source.drop pos)
  | .internal _ => False

variable {source : List UInt8} {pos stop : Nat}

theorem lt_of_drop_ne_nil (h : source.drop pos ≠ []) : pos < source.length := by
  by_cases hp : pos < source.length
  · exact hp
  · exact absurd (List.drop_eq_nil_of_le (Nat.le_of_not_lt hp)) h

theorem lt_of_starts {word : List UInt8} (hw : word ≠ []) (h : word <+: source.drop pos) :
    pos < source.length := by
  apply lt_of_drop_ne_nil
  intro hd
  rw [hd] at h
  exact hw (List.prefix_nil.mp h)

theorem Lexeme.mem_special {b : UInt8} (h : role b ∉ [.blank, .newline, .hash, .plain]) :
    b ∈ special := by
  unfold role at h
  split at h <;> first | decide | simp at h

theorem Delimiter.opening_ne_nil (d : Delimiter) : d.opening ≠ [] := by
  cases d <;> decide

/-- A construct that needs one more level opens in one of three ways. -/
theorem Delimiter.opening_cases {d : Delimiter} {bytes : List UInt8} (h : d.opening <+: bytes) :
    ascii "\"" <+: bytes ∨ ascii "$(" <+: bytes ∨ ascii "(" <+: bytes := by
  cases d with
  | doubleQuote => exact Or.inl h
  | commandSubstitution => exact Or.inr (Or.inl h)
  | arithmetic => exact Or.inr (Or.inl (Scan.prefix_of_expansion h))
  | arithmeticGroup => exact Or.inr (Or.inr h)

def Answer.error? : Answer → Option LexError
  | .ok _ => none
  | .error e => some e

theorem Answer.eq_error_of {answer : Answer} {e : LexError} (h : answer.error? = some e) :
    answer = .error e := by
  cases answer with
  | ok => nomatch h
  | error found => rw [Option.some.inj h]

/-- What a failing routine shows is evidence, once the delimiter of arithmetic is not to blame. -/
theorem Cause.Shows.evidence {cause : Cause} (h : cause.Shows source pos stop)
    (hb : ∀ d, cause = .unterminated d → Enclosure.substitution.Blames d) :
    pos < source.length ∧ cause.Evidence source pos stop := by
  cases cause with
  | unexpected found =>
    obtain ⟨hstop, b, bytes, hd, hfound, hrole⟩ := h
    have hlt : pos < source.length := lt_of_drop_ne_nil (by simp [hd])
    have hbyte : source[pos]? = some b := by
      rw [← List.head?_drop, hd, List.head?_cons]
    exact ⟨hlt, hstop, b, Lexeme.mem_special hrole, hbyte, hfound⟩
  | expectedIn got =>
    obtain ⟨word, hword, hne, hin, hgot, hstop⟩ := h
    have hprefix : word <+: source.drop pos := by
      rw [hword]
      exact List.takeWhile_prefix _
    have hextract : source.extract pos stop = word := by
      rw [List.extract_eq_take_drop, hstop, Nat.add_sub_cancel_left]
      exact (List.prefix_iff_eq_take.mp hprefix).symm
    have hsize := List.length_pos_iff.mpr hne
    refine ⟨lt_of_starts hne hprefix, by omega, ?_⟩
    rw [hextract]
    exact ⟨hword, hin, hgot⟩
  | unsupported what => exact ⟨lt_of_starts (by decide) h.2.2, h.2⟩
  | unterminated d =>
    obtain ⟨hopen, hstop⟩ := h
    have hlt := lt_of_starts d.opening_ne_nil hopen
    have hblamed := hb d rfl
    cases d with
    | doubleQuote => exact ⟨hlt, hstop.resolve_left nofun, hopen⟩
    | commandSubstitution => exact ⟨hlt, hstop.resolve_left nofun, hopen⟩
    | arithmetic | arithmeticGroup => exact absurd rfl hblamed
  | tooDeep limit =>
    obtain ⟨hlimit, d, hopen⟩ := h
    exact ⟨lt_of_starts d.opening_ne_nil hopen, hlimit, Delimiter.opening_cases hopen⟩
  | internal reason => exact h.elim

namespace Lexer

/-- A call that fails, after any others, points into what lay ahead of it, at the evidence. -/
theorem get_evidence {lexer after : Lexer} {e : LexError} (h : Reachable source lexer)
    (hget : lexer.get = (.error e, after)) :
    lexer.pos ≤ e.pos ∧ e.pos < source.length ∧ e.cause.Evidence source e.pos after.pos := by
  rcases get_cases h.fits with hc | ⟨node, s, hc, _⟩ | ⟨found, s, hc, hf⟩
  · simp [hc] at hget
  · simp [hc] at hget
  · rw [hc] at hget
    obtain ⟨he, rfl⟩ := Prod.mk.inj hget
    obtain rfl : found = e := by simpa using he
    exact ⟨hf.place, hf.shows.evidence hf.blame⟩

/-- The error of the inner `$((` comes from the table when the outer one is read again. -/
theorem get_evidence_recalled :
    let source := ascii "$(($((b"
    let e : LexError := ⟨.unterminated .commandSubstitution, 3⟩
    (start source).get.1 = .error e ∧ (start source).pos ≤ e.pos ∧ e.pos < source.length ∧
      e.cause.Evidence source e.pos source.length := by
  intro source e
  have herror : (start source).get.1.error? = some e := by decide +kernel
  have hstop : (start source).get.2.pos = source.length := by decide +kernel
  generalize hget : (start source).get = called at herror hstop ⊢
  obtain ⟨answer, after⟩ := called
  obtain rfl : answer = .error e := Answer.eq_error_of herror
  have evidence := get_evidence .start hget
  rw [show after.pos = source.length from hstop] at evidence
  exact ⟨rfl, evidence⟩

end Lexer

end ShellLex
