import ShellLex.Diagnostic
import ShellLex.Proofs.Characters
/-!
What diagnostics mark. The mark of an error is the first byte of what the error is about, which
stands in the source; all but the words found in the place of `in` begin with a byte of ASCII.
-/
namespace ShellLex

open Utf8 (Boundary)

variable {source bytes : List UInt8} {text : List Char} {pos stop : Nat}

theorem getElem?_of_starts {word : List UInt8} {b : UInt8} (h : word <+: source.drop pos)
    (hw : word.head? = some b) : source[pos]? = some b := by
  obtain ⟨rest, hrest⟩ := h
  rw [← List.head?_drop, ← hrest, List.head?_append, hw]
  rfl

theorem Delimiter.opening_ascii (d : Delimiter) :
    ∃ b, d.opening.head? = some b ∧ b.toNat < 0x80 := by
  cases d with
  | doubleQuote | commandSubstitution | arithmetic | arithmeticGroup => exact ⟨_, rfl, by decide⟩

/-- Every other error is about something that begins with a byte of ASCII. -/
theorem Cause.Shows.byte {cause : Cause} (h : cause.Shows source pos stop)
    (hc : ∀ got, cause ≠ .expectedIn got) : ∃ b, source[pos]? = some b ∧ b.toNat < 0x80 := by
  cases cause with
  | unexpected found =>
    obtain ⟨_, b, bytes, hd, _, hrole⟩ := h
    have starts : [b] <+: source.drop pos := by
      rw [hd]
      exact ⟨bytes, rfl⟩
    exact ⟨b, getElem?_of_starts starts rfl, ascii_of_role fun hr => by simp [hr] at hrole⟩
  | expectedIn got => exact absurd rfl (hc got)
  | unsupported what =>
    have dollar : (ascii "$\x7b").head? = some 0x24 := rfl
    exact ⟨_, getElem?_of_starts h.2.2 dollar, by decide⟩
  | unterminated d =>
    obtain ⟨b, hb, hascii⟩ := d.opening_ascii
    exact ⟨b, getElem?_of_starts h.1 hb, hascii⟩
  | tooDeep limit =>
    obtain ⟨_, d, hopening⟩ := h
    obtain ⟨b, hb, hascii⟩ := d.opening_ascii
    exact ⟨b, getElem?_of_starts hopening hb, hascii⟩
  | internal reason => exact h.elim

/-- A character is of ASCII if its first byte is. -/
theorem Utf8.ascii_iff_head {c : Char} {b : UInt8}
    (h : (String.utf8EncodeChar c).head? = some b) : c.toNat < 0x80 ↔ b.toNat < 0x80 := by
  constructor
  · intro hc
    rw [utf8EncodeChar_ascii hc] at h
    obtain rfl : UInt8.ofNat c.toNat = b := by simpa using h
    rwa [toNat_ofNat (by omega)]
  · intro hb
    rwa [toNat_of_head h hb]

/-- The byte at the offset of an error, whose character is of one byte unless it begins a word in
the place of `in`. -/
theorem byte_of_error {e : LexError} (h : tokenize (Utf8.encode text) = .error e) :
    ∃ b, (Utf8.encode text)[e.pos]? = some b ∧ Boundary text e.pos ∧
      (b.toNat < 0x80 ↔
        ∀ got c, e.cause = .expectedIn got → got.toList.head? = some c → c.toNat < 0x80) := by
  by_cases hc : ∃ got, e.cause = .expectedIn got
  · obtain ⟨got, hc⟩ := hc
    obtain ⟨hstart, hne, hword⟩ := got_of_tokenize h hc
    cases hchars : got.toList with
    | nil => exact absurd (String.toList_inj.mp hchars) hne
    | cons c chars =>
      obtain ⟨b, bytes, hb⟩ := List.exists_cons_of_ne_nil (Utf8.utf8EncodeChar_ne_nil c)
      rw [hchars, Utf8.encode_cons, hb] at hword
      have starts := List.takeWhile_prefix (l := (Utf8.encode text).drop e.pos) isPlain
      rw [← hword] at starts
      have wide := Utf8.ascii_iff_head (c := c) (b := b) (by rw [hb]; rfl)
      refine ⟨b, getElem?_of_starts starts rfl, hstart, wide.symm.trans ?_⟩
      constructor
      · intro hascii found c' hfound hc'
        obtain rfl : got = found := by simpa [hc] using hfound
        obtain rfl : c = c' := by simpa [hchars] using hc'
        exact hascii
      · intro hall
        exact hall got c hc (by rw [hchars]; rfl)
  · obtain ⟨stop, shows⟩ := shows_of_tokenize h
    obtain ⟨b, hb, hascii⟩ := shows.byte fun got hgot => hc ⟨got, hgot⟩
    exact ⟨b, hb, .at_ascii hb hascii, fun _ got _ hgot => absurd ⟨got, hgot⟩ hc, fun _ => hascii⟩

/-- What an error marks is one byte of the source, which begins a character. It is all of it unless
the error is for a missing `in` and the word in its place begins with a character of several
bytes. -/
theorem diagnose_byte {e : LexError} (ht : Utf8.decode? source = some text)
    (h : tokenize source = .error e) :
    ∃ d, diagnose? source e = some d ∧ d.start < d.stop ∧ d.stop ≤ source.length ∧
      Boundary text d.start ∧
      (Boundary text d.stop ↔
        ∀ got c, e.cause = .expectedIn got → got.toList.head? = some c → c.toNat < 0x80) := by
  obtain rfl := Utf8.encode_of_decode? ht
  obtain ⟨b, hb, hstart, hwide⟩ := byte_of_error h
  obtain ⟨hlt, _⟩ := List.getElem?_eq_some_iff.mp hb
  have first : min e.pos (Utf8.encode text).length = e.pos := Nat.min_eq_left (Nat.le_of_lt hlt)
  have next : min (e.pos + 1) (Utf8.encode text).length = e.pos + 1 := Nat.min_eq_left hlt
  refine ⟨.ofError (Utf8.encode text) e, by rw [diagnose?, ht]; rfl, ?_⟩
  simp only [Diagnostic.ofError, first, next]
  exact ⟨Nat.lt_succ_self _, hlt, hstart, (hstart.succ_iff hb).trans hwide⟩

/-- An error behind a character of two bytes. -/
theorem diagnose_byte_unclosed :
    let text := "é\"".toList
    let source := Utf8.encode text
    let e : LexError := ⟨.unterminated .doubleQuote, 2⟩
    Utf8.decode? source = some text ∧ tokenize source = .error e ∧
      ∃ d, diagnose? source e = some d ∧ d.start < d.stop ∧ Boundary text d.start ∧
        Boundary text d.stop := by
  intro text source e
  have ht : Utf8.decode? source = some text := by decide +kernel
  have h : tokenize source = .error e := by rfl
  obtain ⟨d, hd, hlt, _, hstart, hstop⟩ := diagnose_byte ht h
  exact ⟨ht, h, d, hd, hlt, hstart, hstop.mpr nofun⟩

/-- In the place of `in` stands a word of one character, of which the first byte is marked. -/
theorem not_diagnose_whole :
    ¬ ∀ source text e, Utf8.decode? source = some text → tokenize source = .error e →
      ∃ d, diagnose? source e = some d ∧ d.start < d.stop ∧ Boundary text d.start ∧
        Boundary text d.stop := by
  intro hall
  let text := "case a é".toList
  let source := Utf8.encode text
  have ht : Utf8.decode? source = some text := by decide +kernel
  have failed : (match tokenize source with
    | .error e => e.pos
    | .ok _ => 0) = 7 := by decide +kernel
  have start : Boundary text 7 := ⟨"case a ".toList, "é".toList, rfl, rfl⟩
  have byte : source[7]? = some 0xC3 := by decide +kernel
  have size : source.length = 9 := by decide +kernel
  cases h : tokenize source with
  | ok nodes =>
    rw [h] at failed
    nomatch failed
  | error e =>
    rw [h] at failed
    obtain ⟨d, hd, _, _, hstop⟩ := hall source text e ht h
    obtain rfl : Diagnostic.ofError source e = d := by simpa [diagnose?, ht] using hd
    simp only [Diagnostic.ofError, failed, size] at hstop
    exact absurd ((start.succ_iff byte).mp hstop) (by decide)

end ShellLex
