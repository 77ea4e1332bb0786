import ShellLex.Text.Utf8
/-!
Bytes that decode to characters without a fault are the encoding of these characters, and what is
encoded is decoded again; so valid bytes can be told from their text, and their text from them.
-/
namespace ShellLex.Utf8

theorem val_ofNat {n : Nat} (h : n.isValidChar) : (Char.ofNat n).val.toNat = n := by
  rw [Char.ofNat, dif_pos h]
  rfl

theorem ofNat_eq {b : UInt8} {n : Nat} (h : n = b.toNat) : UInt8.ofNat n = b := by
  rw [h, UInt8.ofNat_toNat]

section Lengths

variable {b c d e : UInt8} {payload : Nat}

def Continues (b : UInt8) : Prop := 0x80 ≤ b.toNat ∧ b.toNat ≤ 0xBF

theorem encode_one (hb : b.toNat ≤ 0x7F) : String.utf8EncodeChar (Char.ofNat b.toNat) = [b] := by
  have hv := val_ofNat (n := b.toNat) (Or.inl (by omega))
  simp only [String.utf8EncodeChar, hv]
  rw [if_pos hb, ofNat_eq rfl]

theorem encode_two (hb : b.toNat = 0xC0 + payload) (hlow : 2 ≤ payload) (hhigh : payload < 32)
    (hc : Continues c) :
    String.utf8EncodeChar (Char.ofNat (payload * 64 + (c.toNat - 0x80))) = [b, c] := by
  obtain ⟨hc, hc'⟩ := hc
  have hv := val_ofNat (n := payload * 64 + (c.toNat - 0x80)) (Or.inl (by omega))
  simp only [String.utf8EncodeChar, hv]
  rw [if_neg (by omega), if_pos (by omega), ofNat_eq (by omega : _ = b.toNat),
    ofNat_eq (by omega : _ = c.toNat)]

/-- The first continuation is bounded from below by what two bytes can hold, and from above by the
surrogates. -/
theorem encode_three (hb : b.toNat = 0xE0 + payload) (hp : payload < 16) (hc : Continues c)
    (hd : Continues d) (hlow : payload = 0 → 0xA0 ≤ c.toNat)
    (hhigh : payload = 13 → c.toNat ≤ 0x9F) :
    String.utf8EncodeChar
      (Char.ofNat ((payload * 64 + (c.toNat - 0x80)) * 64 + (d.toNat - 0x80))) = [b, c, d] := by
  obtain ⟨hc, hc'⟩ := hc
  obtain ⟨hd, hd'⟩ := hd
  have valid : ((payload * 64 + (c.toNat - 0x80)) * 64 + (d.toNat - 0x80)).isValidChar := by
    unfold Nat.isValidChar
    omega
  simp only [String.utf8EncodeChar, val_ofNat valid]
  rw [if_neg (by omega), if_neg (by omega), if_pos (by omega), ofNat_eq (by omega : _ = b.toNat),
    ofNat_eq (by omega : _ = c.toNat), ofNat_eq (by omega : _ = d.toNat)]

/-- The first continuation is bounded from below by what three bytes can hold, and from above by the
last code point. -/
theorem encode_four (hb : b.toNat = 0xF0 + payload) (hp : payload ≤ 4) (hc : Continues c)
    (hd : Continues d) (he : Continues e) (hlow : payload = 0 → 0x90 ≤ c.toNat)
    (hhigh : payload = 4 → c.toNat ≤ 0x8F) :
    String.utf8EncodeChar (Char.ofNat
      (((payload * 64 + (c.toNat - 0x80)) * 64 + (d.toNat - 0x80)) * 64 + (e.toNat - 0x80))) =
        [b, c, d, e] := by
  obtain ⟨hc, hc'⟩ := hc
  obtain ⟨hd, hd'⟩ := hd
  obtain ⟨he, he'⟩ := he
  have valid : (((payload * 64 + (c.toNat - 0x80)) * 64 + (d.toNat - 0x80)) * 64 +
      (e.toNat - 0x80)).isValidChar := Or.inr ⟨by omega, by omega⟩
  simp only [String.utf8EncodeChar, val_ofNat valid]
  rw [if_neg (by omega), if_neg (by omega), if_neg (by omega), ofNat_eq (by omega : _ = b.toNat),
    ofNat_eq (by omega : _ = c.toNat), ofNat_eq (by omega : _ = d.toNat),
    ofNat_eq (by omega : _ = e.toNat)]

end Lengths

inductive Lead.Announced (b : UInt8) : Lead → Prop where
  | one {low high} (hb : b.toNat ≤ 0x7F) : Announced b ⟨b.toNat, 0, low, high⟩
  | two {payload} (hb : b.toNat = 0xC0 + payload) (hlow : 2 ≤ payload) (hhigh : payload < 32) :
      Announced b ⟨payload, 1, 0x80, 0xBF⟩
  | three {payload low high} (hb : b.toNat = 0xE0 + payload) (hp : payload < 16)
      (hl : 0x80 ≤ low.toNat) (hh : high.toNat ≤ 0xBF) (hlow : payload = 0 → 0xA0 ≤ low.toNat)
      (hhigh : payload = 13 → high.toNat ≤ 0x9F) : Announced b ⟨payload, 2, low, high⟩
  | four {payload low high} (hb : b.toNat = 0xF0 + payload) (hp : payload ≤ 4)
      (hl : 0x80 ≤ low.toNat) (hh : high.toNat ≤ 0xBF) (hlow : payload = 0 → 0x90 ≤ low.toNat)
      (hhigh : payload = 4 → high.toNat ≤ 0x8F) : Announced b ⟨payload, 3, low, high⟩

variable {b : UInt8} {lead : Lead} {bytes : List UInt8} {text : List Char}

theorem lead?_announced (h : lead? b = some lead) : lead.Announced b := by
  have low : (0x80 : UInt8).toNat = 0x80 := rfl
  have high : (0xBF : UInt8).toNat = 0xBF := rfl
  unfold lead? at h
  simp only [UInt8.le_iff_toNat_le, UInt8.lt_iff_toNat_lt, ← UInt8.toNat_inj,
    UInt8.reduceToNat] at h
  split at h
  · obtain rfl := Option.some.inj h
    exact .one ‹_›
  split at h
  · nomatch h
  split at h
  · obtain rfl := Option.some.inj h
    exact .two (by omega) (by omega) (by omega)
  split at h
  · obtain rfl := Option.some.inj h
    exact .three (by omega) (by omega) (by decide) (by decide) (by decide) nofun
  split at h
  · obtain rfl := Option.some.inj h
    exact .three (by omega) (by omega) (by decide) (by decide) nofun (by decide)
  split at h
  · obtain rfl := Option.some.inj h
    exact .three (by omega) (by omega) (by decide) (by decide) (by omega) (by omega)
  split at h
  · obtain rfl := Option.some.inj h
    exact .four (by omega) (by omega) (by decide) (by decide) (by decide) nofun
  split at h
  · obtain rfl := Option.some.inj h
    exact .four (by omega) (by omega) (by decide) (by decide) (by omega) (by omega)
  split at h
  · obtain rfl := Option.some.inj h
    exact .four (by omega) (by omega) (by decide) (by decide) nofun (by decide)
  · nomatch h

theorem continuing_cons {count : Nat} {low high : UInt8}
    (h : continuing (count + 1) low high bytes = count + 1) :
    ∃ c rest, bytes = c :: rest ∧ low.toNat ≤ c.toNat ∧ c.toNat ≤ high.toNat ∧
      continuing count 0x80 0xBF rest = count := by
  cases bytes with
  | nil => simp [continuing] at h
  | cons c rest =>
    simp only [continuing, UInt8.le_iff_toNat_le] at h
    split at h
    · rename_i hc
      exact ⟨c, rest, rfl, hc.1, hc.2, by omega⟩
    · omega

/-- The bytes of a character that is decoded are the encoding of it. -/
theorem encode_scalar (h : lead? b = some lead)
    (ht : continuing lead.count lead.low lead.high bytes = lead.count) :
    String.utf8EncodeChar (Char.ofNat (scalar lead.payload (bytes.take lead.count))) =
      b :: bytes.take lead.count := by
  cases lead?_announced h with
  | one hb => exact encode_one hb
  | two hb hlow hhigh =>
    obtain ⟨c, rest, rfl, hc, hc', _⟩ := continuing_cons ht
    exact encode_two hb hlow hhigh ⟨hc, hc'⟩
  | three hb hp hl hh hlow hhigh =>
    obtain ⟨c, rest, rfl, hc, hc', ht⟩ := continuing_cons ht
    obtain ⟨d, rest, rfl, hd, hd', _⟩ := continuing_cons ht
    exact encode_three hb hp ⟨Nat.le_trans hl hc, Nat.le_trans hc' hh⟩ ⟨hd, hd'⟩
      (fun hz => Nat.le_trans (hlow hz) hc) fun hm => Nat.le_trans hc' (hhigh hm)
  | four hb hp hl hh hlow hhigh =>
    obtain ⟨c, rest, rfl, hc, hc', ht⟩ := continuing_cons ht
    obtain ⟨d, rest, rfl, hd, hd', ht⟩ := continuing_cons ht
    obtain ⟨e, rest, rfl, he, he', _⟩ := continuing_cons ht
    exact encode_four hb hp ⟨Nat.le_trans hl hc, Nat.le_trans hc' hh⟩ ⟨hd, hd'⟩ ⟨he, he'⟩
      (fun hz => Nat.le_trans (hlow hz) hc) fun hm => Nat.le_trans hc' (hhigh hm)

theorem decodeFrom_skip (skip : Nat) (bytes : List UInt8) :
    decodeFrom skip bytes = decodeFrom 0 (bytes.drop skip) := by
  induction skip generalizing bytes with
  | zero => rfl
  | succ skip ih =>
    cases bytes with
    | nil => rfl
    | cons b bytes => rw [decodeFrom, ih, List.drop_succ_cons]

theorem mapM_cons_eq_some {c : Option Char} {chars : List (Option Char)}
    (h : (c :: chars).mapM id = some text) :
    ∃ first rest, c = some first ∧ chars.mapM id = some rest ∧ text = first :: rest := by
  rw [List.mapM_cons] at h
  obtain ⟨first, hc, h⟩ := Option.bind_eq_some_iff.mp h
  obtain ⟨rest, hrest, h⟩ := Option.bind_eq_some_iff.mp h
  exact ⟨first, rest, hc, hrest, (Option.some.inj h).symm⟩

theorem encode_cons (c : Char) (text : List Char) :
    encode (c :: text) = String.utf8EncodeChar c ++ encode text := List.flatMap_cons

/-- Bytes without a fault are the encoding of their text. -/
theorem encode_of_decode? (h : decode? bytes = some text) : encode text = bytes := by
  induction hn : bytes.length using Nat.strongRecOn generalizing bytes text with
  | ind n ih =>
    subst hn
    cases bytes with
    | nil =>
      obtain rfl : text = [] := by simpa [decode?, decode, decodeFrom] using h.symm
      rfl
    | cons b bytes =>
      unfold decode? decode decodeFrom at h
      cases hl : lead? b with
      | none =>
        rw [hl] at h
        obtain ⟨_, _, hnone, _⟩ := mapM_cons_eq_some h
        nomatch hnone
      | some lead =>
        rw [hl] at h
        obtain ⟨c, rest, hchar, hrest, rfl⟩ := mapM_cons_eq_some h
        by_cases hc : continuing lead.count lead.low lead.high bytes = lead.count
        · rw [if_pos hc, hc] at hchar
          rw [hc, decodeFrom_skip] at hrest
          have hless : (bytes.drop lead.count).length < (b :: bytes).length := by
            rw [List.length_drop, List.length_cons]
            omega
          have tail := ih _ hless hrest rfl
          rw [encode_cons, tail, ← Option.some.inj hchar, encode_scalar hl hc, List.cons_append,
            List.take_append_drop]
        · rw [if_neg hc] at hchar
          nomatch hchar

theorem eq_map_some_of_mapM {chars : List (Option Char)} (h : chars.mapM id = some text) :
    chars = text.map some := by
  induction chars generalizing text with
  | nil =>
    obtain rfl : text = [] := by simpa using h.symm
    rfl
  | cons c chars ih =>
    obtain ⟨first, rest, rfl, hrest, rfl⟩ := mapM_cons_eq_some h
    rw [ih hrest, List.map_cons]

theorem lossy_of_decode? (h : decode? bytes = some text) : lossy bytes = text := by
  rw [lossy, eq_map_some_of_mapM h, List.map_map]
  exact List.map_id _

def Valid (bytes : List UInt8) : Prop := ∃ text, decode? bytes = some text

/-- Valid bytes are told apart by what they decode to. -/
theorem Valid.eq_of_lossy {bytes' : List UInt8} (h : Valid bytes) (h' : Valid bytes')
    (heq : lossy bytes = lossy bytes') : bytes = bytes' := by
  obtain ⟨text, ht⟩ := h
  obtain ⟨text', ht'⟩ := h'
  rw [lossy_of_decode? ht, lossy_of_decode? ht'] at heq
  rw [← encode_of_decode? ht, ← encode_of_decode? ht', heq]

section Decoding

variable {c : UInt8} {payload : Nat} {rest : List UInt8}

theorem lead?_one (hb : b.toNat ≤ 0x7F) : lead? b = some ⟨b.toNat, 0, 0x80, 0xBF⟩ := by
  unfold lead?
  simp only [UInt8.le_iff_toNat_le, UInt8.reduceToNat]
  rw [if_pos hb]

theorem lead?_two (hb : b.toNat = 0xC0 + payload) (hlow : 2 ≤ payload) (hhigh : payload < 32) :
    lead? b = some ⟨payload, 1, 0x80, 0xBF⟩ := by
  unfold lead?
  simp only [UInt8.le_iff_toNat_le, UInt8.lt_iff_toNat_lt, UInt8.reduceToNat]
  rw [if_neg (by omega), if_neg (by omega), if_pos (by omega), hb, Nat.add_sub_cancel_left]

theorem lead?_three (hb : b.toNat = 0xE0 + payload) (hp : payload < 16) (hc : Continues c)
    (hlow : payload = 0 → 0xA0 ≤ c.toNat) (hhigh : payload = 13 → c.toNat ≤ 0x9F) :
    ∃ low high, lead? b = some ⟨payload, 2, low, high⟩ ∧ low ≤ c ∧ c ≤ high := by
  obtain ⟨hc, hc'⟩ := hc
  unfold lead?
  simp only [UInt8.le_iff_toNat_le, UInt8.lt_iff_toNat_lt, ← UInt8.toNat_inj, UInt8.reduceToNat]
  rw [if_neg (by omega), if_neg (by omega), if_neg (by omega)]
  by_cases hz : payload = 0
  · rw [if_pos (by omega), hz]
    exact ⟨_, _, rfl, hlow hz, hc'⟩
  by_cases hs : payload = 13
  · rw [if_neg (by omega), if_pos (by omega), hs]
    exact ⟨_, _, rfl, hc, hhigh hs⟩
  · rw [if_neg (by omega), if_neg (by omega), if_pos (by omega), hb, Nat.add_sub_cancel_left]
    exact ⟨_, _, rfl, hc, hc'⟩

theorem lead?_four (hb : b.toNat = 0xF0 + payload) (hp : payload ≤ 4) (hc : Continues c)
    (hlow : payload = 0 → 0x90 ≤ c.toNat) (hhigh : payload = 4 → c.toNat ≤ 0x8F) :
    ∃ low high, lead? b = some ⟨payload, 3, low, high⟩ ∧ low ≤ c ∧ c ≤ high := by
  obtain ⟨hc, hc'⟩ := hc
  unfold lead?
  simp only [UInt8.le_iff_toNat_le, UInt8.lt_iff_toNat_lt, ← UInt8.toNat_inj, UInt8.reduceToNat]
  rw [if_neg (by omega), if_neg (by omega), if_neg (by omega), if_neg (by omega),
    if_neg (by omega), if_neg (by omega)]
  by_cases hz : payload = 0
  · rw [if_pos (by omega), hz]
    exact ⟨_, _, rfl, hlow hz, hc'⟩
  by_cases hs : payload = 4
  · rw [if_neg (by omega), if_neg (by omega), if_pos (by omega), hs]
    exact ⟨_, _, rfl, hc, hhigh hs⟩
  · rw [if_neg (by omega), if_pos (by omega), hb, Nat.add_sub_cancel_left]
    exact ⟨_, _, rfl, hc, hc'⟩

theorem continuing_of_cons {count : Nat} {low high : UInt8} (hl : low ≤ c) (hh : c ≤ high)
    (h : continuing count 0x80 0xBF bytes = count) :
    continuing (count + 1) low high (c :: bytes) = count + 1 := by
  rw [continuing, if_pos ⟨hl, hh⟩, h]

theorem Continues.continuing {count : Nat} (hc : Continues c)
    (h : continuing count 0x80 0xBF bytes = count) :
    continuing (count + 1) 0x80 0xBF (c :: bytes) = count + 1 :=
  continuing_of_cons (UInt8.le_iff_toNat_le.mpr hc.1) (UInt8.le_iff_toNat_le.mpr hc.2) h

/-- A lead byte is decoded with the bytes that it announces. -/
theorem decodeFrom_lead {n : Nat} (h : lead? b = some lead) (hl : bytes.length = lead.count)
    (hc : continuing lead.count lead.low lead.high (bytes ++ rest) = lead.count)
    (hn : scalar lead.payload bytes = n) :
    decodeFrom 0 (b :: bytes ++ rest) = some (Char.ofNat n) :: decodeFrom 0 rest := by
  rw [List.cons_append, decodeFrom, h]
  simp only [hc, if_true]
  rw [decodeFrom_skip, ← hl, List.take_left, List.drop_left, hn]

theorem continues_of_toNat {n : Nat} (h : b.toNat = n + 128) (hn : n < 64) : Continues b := by
  rw [Continues, h]
  omega

theorem toNat_ofNat {n : Nat} (h : n < 256) : (UInt8.ofNat n).toNat = n := by
  rw [UInt8.toNat_ofNat', Nat.mod_eq_of_lt h]

/-- What a character is encoded as is decoded to it, whatever follows. -/
theorem decodeFrom_utf8EncodeChar (char : Char) (rest : List UInt8) :
    decodeFrom 0 (String.utf8EncodeChar char ++ rest) = some char :: decodeFrom 0 rest := by
  have valid : char.toNat < 0xD800 ∨ 0xDFFF < char.toNat ∧ char.toNat < 0x110000 := char.valid
  have value : Char.ofNat char.toNat = char := Char.ofNat_toNat char
  simp only [String.utf8EncodeChar]
  rw [show char.val.toNat = char.toNat from rfl]
  generalize char.toNat = n at valid value
  subst value
  have last : (UInt8.ofNat (n % 64 + 128)).toNat = n % 64 + 128 := toNat_ofNat (by omega)
  have third : (UInt8.ofNat (n / 64 % 64 + 128)).toNat = n / 64 % 64 + 128 :=
    toNat_ofNat (by omega)
  have second : (UInt8.ofNat (n / 4096 % 64 + 128)).toNat = n / 4096 % 64 + 128 :=
    toNat_ofNat (by omega)
  have last_continues := continues_of_toNat last (by omega)
  have third_continues := continues_of_toNat third (by omega)
  split
  · have hb : (UInt8.ofNat n).toNat = n := toNat_ofNat (by omega)
    exact decodeFrom_lead (lead?_one (by omega)) rfl rfl hb
  split
  · have hb : (UInt8.ofNat (n / 64 % 32 + 192)).toNat = 0xC0 + n / 64 := by
      rw [toNat_ofNat (by omega)]
      omega
    refine decodeFrom_lead (lead?_two hb (by omega) (by omega)) rfl
      (last_continues.continuing rfl) ?_
    simp only [scalar, List.foldl, last]
    omega
  split
  · have hb : (UInt8.ofNat (n / 4096 % 16 + 224)).toNat = 0xE0 + n / 4096 := by
      rw [toNat_ofNat (by omega)]
      omega
    obtain ⟨low, high, hlead, hl, hh⟩ :=
      lead?_three hb (by omega) third_continues (by omega) (by omega)
    refine decodeFrom_lead hlead rfl (continuing_of_cons hl hh (last_continues.continuing rfl)) ?_
    simp only [scalar, List.foldl, third, last]
    omega
  · have hb : (UInt8.ofNat (n / 262144 % 8 + 240)).toNat = 0xF0 + n / 262144 := by
      rw [toNat_ofNat (by omega)]
      omega
    obtain ⟨low, high, hlead, hl, hh⟩ :=
      lead?_four hb (by omega) (continues_of_toNat second (by omega)) (by omega) (by omega)
    refine decodeFrom_lead hlead rfl (continuing_of_cons hl hh
      (third_continues.continuing (last_continues.continuing rfl))) ?_
    simp only [scalar, List.foldl, second, third, last]
    omega

theorem decode?_encode (text : List Char) : decode? (encode text) = some text := by
  induction text with
  | nil => rfl
  | cons c text ih =>
    unfold decode? decode at ih ⊢
    rw [encode_cons, decodeFrom_utf8EncodeChar, List.mapM_cons, ih]
    rfl

end Decoding

theorem valid_encode (text : List Char) : Valid (encode text) := ⟨text, decode?_encode text⟩

theorem lossy_encode (text : List Char) : lossy (encode text) = text :=
  lossy_of_decode? (decode?_encode text)

theorem encode_inj {text text' : List Char} (h : encode text = encode text') : text = text' := by
  rw [← lossy_encode text, h, lossy_encode]

end ShellLex.Utf8
