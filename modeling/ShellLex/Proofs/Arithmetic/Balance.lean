import ShellLex.Scan.Enclosure
/-!
Parentheses by counting, with no regard to what stands between them, and the same in one pass with
a limit on how many are open. Double quotes in a word are told in one pass as well.
-/
namespace ShellLex.Balance

def excess (bytes : List UInt8) : Int := bytes.count 0x28 - bytes.count 0x29

/-- The first index at which a parenthesis is closed that was not opened. -/
def unmatched? (bytes : List UInt8) : Option Nat :=
  (List.range bytes.length).find? fun i => excess (bytes.take (i + 1)) < 0

def scanned (bytes : List UInt8) : List UInt8 := bytes.take ((unmatched? bytes).getD bytes.length)

def reaches? (limit : Nat) (bytes : List UInt8) : Option Nat :=
  (List.range (scanned bytes).length).find? fun k =>
    excess ((scanned bytes).take (k + 1)) = limit

inductive Decision where
  /-- One more than the limit is opened at `pos`. -/
  | deep (pos : Nat)
  /-- The first that was not opened is closed at `pos`, and `after` follows. -/
  | closed (pos : Nat) (after : List UInt8)
  | unclosed
  deriving DecidableEq, Repr

/-- The decision on the bytes from `pos` on, before which so many parentheses were opened. -/
def sweep (limit : Nat) : (opened pos : Nat) → List UInt8 → Decision
  | _, _, [] => .unclosed
  | opened, pos, b :: bytes =>
    if b = 0x28 then
      if opened = limit then .deep pos else sweep limit (opened + 1) (pos + 1) bytes
    else if b = 0x29 then
      match opened with
      | 0 => .closed pos bytes
      | opened + 1 => sweep limit opened (pos + 1) bytes
    else sweep limit opened (pos + 1) bytes

def Parenless (bytes : List UInt8) : Prop := ∀ c ∈ bytes, c ≠ 0x28 ∧ c ≠ 0x29

instance (bytes : List UInt8) : Decidable (Parenless bytes) := List.decidableBAll _ bytes

section Sweep

variable {limit opened pos : Nat} {b : UInt8} {bytes text : List UInt8}

theorem sweep_open (h : opened ≠ limit) :
    sweep limit opened pos (0x28 :: bytes) = sweep limit (opened + 1) (pos + 1) bytes := by
  simp [sweep, h]

theorem sweep_deep : sweep limit limit pos (0x28 :: bytes) = .deep pos := by
  simp [sweep]

theorem sweep_close :
    sweep limit (opened + 1) pos (0x29 :: bytes) = sweep limit opened (pos + 1) bytes := by
  simp [sweep]

theorem sweep_closed : sweep limit 0 pos (0x29 :: bytes) = .closed pos bytes := by
  simp [sweep]

theorem sweep_other (ho : b ≠ 0x28) (hc : b ≠ 0x29) :
    sweep limit opened pos (b :: bytes) = sweep limit opened (pos + 1) bytes := by
  simp [sweep, ho, hc]

/-- Text without parentheses does not matter. -/
theorem sweep_append (h : Parenless text) :
    sweep limit opened pos (text ++ bytes) =
      sweep limit opened (pos + text.length) bytes := by
  induction text generalizing pos with
  | nil => rfl
  | cons c text ih =>
    obtain ⟨⟨ho, hc⟩, htext⟩ := List.forall_mem_cons.mp h
    rw [List.cons_append, sweep_other ho hc, ih htext, List.length_cons, Nat.add_right_comm,
      Nat.add_assoc]

/-- One parenthesis more around the bytes is one level less for them. -/
theorem sweep_succ (h : opened ≤ limit) :
    sweep (limit + 1) (opened + 1) pos bytes =
      match sweep limit opened pos bytes with
      | .deep at_ => .deep at_
      | .closed at_ after => sweep (limit + 1) 0 (at_ + 1) after
      | .unclosed => .unclosed := by
  induction bytes generalizing opened pos with
  | nil => rfl
  | cons b bytes ih =>
    by_cases ho : b = 0x28
    · subst ho
      by_cases hd : opened = limit
      · subst hd
        rw [sweep_deep, sweep_deep]
      · rw [sweep_open (by omega), sweep_open hd, ih (by omega)]
    · by_cases hc : b = 0x29
      · subst hc
        cases opened with
        | zero =>
          -- Here the inner bytes end, and both go on with what follows.
          rw [sweep_close, sweep_closed]
        | succ opened => rw [sweep_close, sweep_close, ih (by omega)]
      · rw [sweep_other ho hc, sweep_other ho hc, ih h]

end Sweep

section Counting

variable {limit opened pos : Nat} {b : UInt8} {bytes : List UInt8}

theorem excess_cons : excess (b :: bytes) =
    excess bytes + if b = 0x28 then 1 else if b = 0x29 then -1 else 0 := by
  simp only [excess, List.count_cons, beq_iff_eq]
  split
  · rename_i ho
    subst ho
    simp
    omega
  · split
    · simp
      omega
    · simp

/-- After each of the first bytes, between none and the limit are open. -/
def Within (limit : Nat) (opened : Int) (bytes : List UInt8) (size : Nat) : Prop :=
  ∀ i < size, 0 ≤ opened + excess (bytes.take (i + 1)) ∧
    opened + excess (bytes.take (i + 1)) ≤ limit

def Decision.Says (limit : Nat) (opened : Int) (pos : Nat) (bytes : List UInt8) : Decision → Prop
  | .deep at_ => ∃ k < bytes.length, at_ = pos + k ∧ Within limit opened bytes k ∧
      opened + excess (bytes.take (k + 1)) = limit + 1
  | .closed at_ after => ∃ i < bytes.length, at_ = pos + i ∧ Within limit opened bytes i ∧
      opened + excess (bytes.take (i + 1)) = -1 ∧ after = bytes.drop (i + 1)
  | .unclosed => Within limit opened bytes bytes.length

theorem Within.cons {next : Int} {size : Nat} (h : Within limit next bytes size)
    (hn : next = opened + excess [b]) (hl : 0 ≤ next ∧ next ≤ limit) :
    Within limit opened (b :: bytes) (size + 1) := by
  intro i hi
  cases i with
  | zero => simpa [← hn] using hl
  | succ i =>
    have step := h i (by omega)
    rw [List.take_succ_cons, excess_cons]
    rw [excess_cons] at hn
    simp only [excess, List.count_nil] at hn step ⊢
    omega

theorem Decision.Says.cons {next : Int} {decision : Decision}
    (h : decision.Says limit next (pos + 1) bytes) (hn : next = opened + excess [b])
    (hl : 0 ≤ next ∧ next ≤ limit) : decision.Says limit opened pos (b :: bytes) := by
  have shift (size : Nat) : next + excess (bytes.take size) =
      opened + excess ((b :: bytes).take (size + 1)) := by
    rw [List.take_succ_cons, excess_cons, hn, excess_cons]
    simp only [excess, List.count_nil]
    omega
  cases decision with
  | deep at_ =>
    obtain ⟨k, hk, rfl, hw, he⟩ := h
    exact ⟨k + 1, Nat.succ_lt_succ hk, by omega, hw.cons hn hl, by rw [← shift, he]⟩
  | closed at_ after =>
    obtain ⟨i, hi, rfl, hw, he, rfl⟩ := h
    exact ⟨i + 1, Nat.succ_lt_succ hi, by omega, hw.cons hn hl, by rw [← shift, he], rfl⟩
  | unclosed => exact Within.cons h hn hl

theorem sweep_says (h : opened ≤ limit) :
    (sweep limit opened pos bytes).Says limit opened pos bytes := by
  have none_before (opened : Int) (bytes : List UInt8) : Within limit opened bytes 0 := nofun
  induction bytes generalizing opened pos with
  | nil => exact none_before _ _
  | cons b bytes ih =>
    by_cases ho : b = 0x28
    · subst ho
      have one : excess [0x28] = 1 := by decide
      by_cases hd : opened = limit
      · subst hd
        rw [sweep_deep]
        exact ⟨0, Nat.succ_pos _, rfl, none_before _ _, by simp [one]⟩
      · rw [sweep_open hd]
        exact (ih (by omega)).cons (by rw [one]; rfl) (by omega)
    · by_cases hc : b = 0x29
      · subst hc
        have one : excess [0x29] = -1 := by decide
        cases opened with
        | zero =>
          rw [sweep_closed]
          exact ⟨0, Nat.succ_pos _, rfl, none_before _ _, by simp [one], rfl⟩
        | succ opened =>
          rw [sweep_close]
          exact (ih (by omega)).cons (by rw [one]; omega) (by omega)
      · rw [sweep_other ho hc]
        have same : excess [b] = 0 := by
          rw [excess_cons, if_neg ho, if_neg hc]
          rfl
        exact (ih h).cons (by rw [same, Int.add_zero]) (by omega)

end Counting

section Decisions

variable {limit pos at_ : Nat} {bytes after : List UInt8}

theorem unmatched?_eq_none : unmatched? bytes = none ↔
    ∀ i < bytes.length, 0 ≤ excess (bytes.take (i + 1)) := by
  simp [unmatched?]

theorem unmatched?_eq_some {i : Nat} : unmatched? bytes = some i ↔
    i < bytes.length ∧ excess (bytes.take (i + 1)) < 0 ∧
      ∀ j < i, 0 ≤ excess (bytes.take (j + 1)) := by
  simp [unmatched?, and_left_comm]

/-- What is scanned reaches at least as far as the counts stay above zero. -/
theorem le_scanned {size : Nat} (h : ∀ i < size, 0 ≤ excess (bytes.take (i + 1)))
    (hs : size ≤ bytes.length) : size ≤ (scanned bytes).length := by
  rw [scanned, List.length_take]
  cases hu : unmatched? bytes with
  | none => simpa using hs
  | some i =>
    obtain ⟨hi, hneg, _⟩ := unmatched?_eq_some.mp hu
    have hsi : size ≤ i := by
      refine Nat.le_of_not_lt fun hlt => ?_
      have := h i hlt
      omega
    rw [Option.getD_some]
    omega

theorem take_scanned {size : Nat} (h : size ≤ (scanned bytes).length) :
    (scanned bytes).take size = bytes.take size := by
  rw [scanned, List.length_take] at h
  rw [scanned, List.take_take, Nat.min_eq_left (by omega)]

theorem decision_deep (h : sweep limit 0 pos bytes = .deep at_) :
    ∃ k, reaches? (limit + 1) bytes = some k ∧ at_ = pos + k := by
  have counts : (sweep limit 0 pos bytes).Says limit 0 pos bytes := sweep_says (Nat.zero_le limit)
  rw [h] at counts
  obtain ⟨k, hk, rfl, hw, he⟩ := counts
  have above : ∀ i < k + 1, 0 ≤ excess (bytes.take (i + 1)) := by
    intro i hi
    rcases Nat.lt_succ_iff_lt_or_eq.mp hi with hlt | rfl
    · simpa using (hw i hlt).1
    · omega
  have reached := le_scanned above hk
  refine ⟨k, List.find?_range_eq_some.mpr ⟨?_, List.mem_range.mpr reached, ?_⟩, rfl⟩
  · rw [take_scanned reached]
    simpa using he
  · intro j hj
    have := (hw j hj).2
    rw [take_scanned (by omega)]
    simp
    omega

theorem reaches?_eq_none (h : Within limit 0 bytes (scanned bytes).length) :
    reaches? (limit + 1) bytes = none := by
  refine List.find?_range_eq_none.mpr fun k hk => ?_
  have := (h k hk).2
  rw [take_scanned hk]
  simp
  omega

theorem decision_closed (h : sweep limit 0 pos bytes = .closed at_ after) :
    ∃ i, unmatched? bytes = some i ∧ reaches? (limit + 1) bytes = none ∧ at_ = pos + i ∧
      after = bytes.drop (i + 1) := by
  have counts : (sweep limit 0 pos bytes).Says limit 0 pos bytes := sweep_says (Nat.zero_le limit)
  rw [h] at counts
  obtain ⟨i, hi, rfl, hw, he, rfl⟩ := counts
  have hu : unmatched? bytes = some i :=
    unmatched?_eq_some.mpr ⟨hi, by omega, fun j hj => by simpa using (hw j hj).1⟩
  refine ⟨i, hu, reaches?_eq_none ?_, rfl, rfl⟩
  simpa [scanned, hu, Nat.min_eq_left (Nat.le_of_lt hi)] using hw

theorem decision_unclosed (h : sweep limit 0 pos bytes = .unclosed) :
    unmatched? bytes = none ∧ reaches? (limit + 1) bytes = none := by
  have counts : (sweep limit 0 pos bytes).Says limit 0 pos bytes := sweep_says (Nat.zero_le limit)
  rw [h] at counts
  have hw : Within limit 0 bytes bytes.length := counts
  have hu : unmatched? bytes = none :=
    unmatched?_eq_none.mpr fun i hi => by simpa using (hw i hi).1
  exact ⟨hu, reaches?_eq_none (by simpa [scanned, hu] using hw)⟩

end Decisions

section Quotes

/-- The double quote that is left open where a word ends that goes on in the bytes from `pos` on, of
which the quote before them may be open. -/
def openQuote? : (quote : Option Nat) → (pos : Nat) → List UInt8 → Option Nat
  | quote, _, [] => quote
  | some start, pos, b :: bytes =>
    openQuote? (if b = 0x22 then none else some start) (pos + 1) bytes
  | none, pos, b :: bytes =>
    if b = 0x22 then openQuote? (some pos) (pos + 1) bytes
    else if (role b).endsWord then none
    else openQuote? none (pos + 1) bytes

/-- Bytes that neither open a quote nor end a word do not matter. -/
theorem openQuote?_append {pos : Nat} {text bytes : List UInt8}
    (h : ∀ b ∈ text, b ≠ 0x22 ∧ (role b).endsWord = false) :
    openQuote? none pos (text ++ bytes) = openQuote? none (pos + text.length) bytes := by
  induction text generalizing pos with
  | nil => rfl
  | cons b text ih =>
    obtain ⟨⟨hq, he⟩, htext⟩ := List.forall_mem_cons.mp h
    rw [List.cons_append, openQuote?, if_neg hq, if_neg (by simp [he]), ih htext,
      List.length_cons, Nat.add_right_comm, Nat.add_assoc]

theorem openQuote?_quoted {start pos : Nat} {text bytes : List UInt8} (h : 0x22 ∉ text) :
    openQuote? (some start) pos (text ++ bytes) =
      openQuote? (some start) (pos + text.length) bytes := by
  induction text generalizing pos with
  | nil => rfl
  | cons b text ih =>
    rw [List.mem_cons, not_or] at h
    obtain ⟨hb, htext⟩ := h
    rw [List.cons_append, openQuote?, if_neg (Ne.symm hb), ih htext, List.length_cons,
      Nat.add_right_comm, Nat.add_assoc]

end Quotes

end ShellLex.Balance
