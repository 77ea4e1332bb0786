import ShellLex.Proofs.Utf8
/-!
Where characters meet. A byte of ASCII is a character of its own in every text, so no character lies
across an offset on either side of it; and what lies between two such offsets is text again.
-/
namespace ShellLex.Utf8

/-- The offset is not inside of a character. -/
def Boundary (text : List Char) (pos : Nat) : Prop :=
  ∃ before after, text = before ++ after ∧ pos = (encode before).length

variable {text : List Char} {c : Char} {b : UInt8} {pos start stop : Nat}

theorem encode_append (text text' : List Char) :
    encode (text ++ text') = encode text ++ encode text' := List.flatMap_append

theorem utf8EncodeChar_ascii (h : c.toNat < 0x80) :
    String.utf8EncodeChar c = [UInt8.ofNat c.toNat] := by
  have hv : c.val.toNat = c.toNat := rfl
  simp only [String.utf8EncodeChar, hv]
  rw [if_pos (Nat.le_of_lt_succ h)]

/-- Every other character takes more than one byte, none of which is of ASCII. -/
theorem utf8EncodeChar_wide (h : 0x80 ≤ c.toNat) :
    1 < (String.utf8EncodeChar c).length ∧ ∀ b ∈ String.utf8EncodeChar c, 0x80 ≤ b.toNat := by
  have hv : c.val.toNat = c.toNat := rfl
  simp only [String.utf8EncodeChar, hv]
  rw [if_neg (by omega)]
  split
  · simp
    omega
  split
  · simp
    omega
  · simp
    omega

theorem utf8EncodeChar_ne_nil (c : Char) : String.utf8EncodeChar c ≠ [] := by
  rcases Nat.lt_or_ge c.toNat 0x80 with h | h
  · simp [utf8EncodeChar_ascii h]
  · exact List.ne_nil_of_length_pos (Nat.lt_of_succ_lt (utf8EncodeChar_wide h).1)

/-- Where a character begins with a byte of ASCII, that byte is all of it. -/
theorem toNat_of_head (h : (String.utf8EncodeChar c).head? = some b) (hb : b.toNat < 0x80) :
    c.toNat = b.toNat := by
  rcases Nat.lt_or_ge c.toNat 0x80 with hc | hc
  · rw [utf8EncodeChar_ascii hc] at h
    obtain rfl : UInt8.ofNat c.toNat = b := by simpa using h
    exact (toNat_ofNat (by omega)).symm
  · have := (utf8EncodeChar_wide hc).2 b (List.mem_of_head? h)
    omega

/-- A byte of ASCII is a character. -/
theorem char_of_ascii (h : (encode text)[pos]? = some b) (hb : b.toNat < 0x80) :
    ∃ before c after, text = before ++ c :: after ∧ pos = (encode before).length ∧
      c.toNat = b.toNat := by
  induction text generalizing pos with
  | nil => simp [encode] at h
  | cons c text ih =>
    rw [encode_cons] at h
    by_cases hp : pos < (String.utf8EncodeChar c).length
    · rw [List.getElem?_append_left hp] at h
      rcases Nat.lt_or_ge c.toNat 0x80 with hc | hc
      · have one : String.utf8EncodeChar c = [UInt8.ofNat c.toNat] := utf8EncodeChar_ascii hc
        obtain rfl : pos = 0 := by
          rw [one, List.length_singleton] at hp
          omega
        rw [← List.head?_eq_getElem?] at h
        exact ⟨[], c, text, rfl, rfl, toNat_of_head h hb⟩
      · have := (utf8EncodeChar_wide hc).2 b (List.mem_of_getElem? h)
        omega
    · rw [List.getElem?_append_right (by omega)] at h
      obtain ⟨before, d, after, rfl, hpos, hd⟩ := ih h
      refine ⟨c :: before, d, after, rfl, ?_, hd⟩
      rw [encode_cons, List.length_append]
      omega

theorem Boundary.zero (text : List Char) : Boundary text 0 := ⟨[], text, rfl, rfl⟩

theorem Boundary.length (text : List Char) : Boundary text (encode text).length :=
  ⟨text, [], by simp, rfl⟩

theorem Boundary.at_ascii (h : (encode text)[pos]? = some b) (hb : b.toNat < 0x80) :
    Boundary text pos := by
  obtain ⟨before, c, after, rfl, rfl, _⟩ := char_of_ascii h hb
  exact ⟨before, c :: after, rfl, rfl⟩

theorem Boundary.after_ascii (h : (encode text)[pos]? = some b) (hb : b.toNat < 0x80) :
    Boundary text (pos + 1) := by
  obtain ⟨before, c, after, rfl, rfl, hc⟩ := char_of_ascii h hb
  refine ⟨before ++ [c], after, by simp, ?_⟩
  rw [encode_append, encode_cons, utf8EncodeChar_ascii (by omega)]
  simp [encode]

/-- Between two boundaries lies a stretch of the text. -/
theorem Boundary.extract (hstart : Boundary text start) (hstop : Boundary text stop) :
    ∃ part, part <:+: text ∧ (encode text).extract start stop = encode part := by
  obtain ⟨before, after, rfl, rfl⟩ := hstart
  obtain ⟨before', after', heq, rfl⟩ := hstop
  rcases List.append_eq_append_iff.mp heq with ⟨part, rfl, rfl⟩ | ⟨part, rfl, rfl⟩
  · refine ⟨part, ⟨before, after', by simp⟩, ?_⟩
    rw [List.extract_eq_take_drop]
    simp [encode_append]
  · refine ⟨[], List.nil_infix, ?_⟩
    rw [List.extract_eq_take_drop]
    simp [encode]

/-- The character that begins at a boundary is of one byte exactly if the byte is of ASCII. -/
theorem Boundary.succ_iff (hpos : Boundary text pos) (h : (encode text)[pos]? = some b) :
    Boundary text (pos + 1) ↔ b.toNat < 0x80 := by
  refine ⟨fun hnext => ?_, Boundary.after_ascii h⟩
  obtain ⟨part, _, hpart⟩ := hpos.extract hnext
  obtain ⟨hlt, rfl⟩ := List.getElem?_eq_some_iff.mp h
  rw [List.extract_eq_take_drop, Nat.add_sub_cancel_left, List.drop_eq_getElem_cons hlt,
    List.take_succ_cons, List.take_zero] at hpart
  cases part with
  | nil => simp [encode] at hpart
  | cons c part =>
    rw [encode_cons] at hpart
    have hlen := congrArg List.length hpart
    rw [List.length_append, List.length_singleton] at hlen
    have hpos := List.length_pos_iff.mpr (utf8EncodeChar_ne_nil c)
    rcases Nat.lt_or_ge c.toNat 0x80 with hc | hc
    · rw [utf8EncodeChar_ascii hc] at hpart
      rw [(List.cons.inj hpart).1, toNat_ofNat (by omega)]
      exact hc
    · have := (utf8EncodeChar_wide hc).1
      omega

end ShellLex.Utf8
