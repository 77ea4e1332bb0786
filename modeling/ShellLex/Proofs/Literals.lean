import ShellLex.Text.Literal
/-!
Literals read back. A character's spelling says where it ends and which character it is, whichever
characters are hidden, and so does a literal. A literal stays in its line.
-/
namespace ShellLex.Text

section Delimiting

variable {α : Type} {write : α → List Char}

/-- What is written can be cut off from whatever follows, and tells what was written. -/
def SelfDelimiting (write : α → List Char) : Prop :=
  ∀ a a' r r', write a ++ r = write a' ++ r' → a = a' ∧ r = r'

theorem SelfDelimiting.injective (h : SelfDelimiting write) : Function.Injective write := by
  intro a a' heq
  exact (h a a' [] [] (congrArg (· ++ []) heq)).1

/-- So can a list be, up to a mark that nothing written begins with. -/
theorem flatMap_delimits {mark : Char} {as as' : List α} {r r' : List Char}
    (h : ∀ a ∈ as, ∀ a' r r', write a ++ r = write a' ++ r' → a = a' ∧ r = r')
    (hm : ∀ a r r', write a ++ r ≠ mark :: r')
    (heq : as.flatMap write ++ mark :: r = as'.flatMap write ++ mark :: r') :
    as = as' ∧ r = r' := by
  induction as generalizing as' with
  | nil =>
    cases as' with
    | nil => exact ⟨rfl, (List.cons.inj heq).2⟩
    | cons a' as' =>
      rw [List.flatMap_cons, List.append_assoc] at heq
      exact absurd heq.symm (hm a' _ r)
  | cons a as ih =>
    cases as' with
    | nil =>
      rw [List.flatMap_cons, List.append_assoc] at heq
      exact absurd heq (hm a _ r')
    | cons a' as' =>
      rw [List.flatMap_cons, List.flatMap_cons, List.append_assoc, List.append_assoc] at heq
      obtain ⟨rfl, htail⟩ := h a List.mem_cons_self _ _ _ heq
      obtain ⟨rfl, hr⟩ := ih (fun b hb => h b (List.mem_cons_of_mem _ hb)) htail
      exact ⟨rfl, hr⟩

/-- A text without marks can be cut off at the first mark. -/
theorem append_mark_inj {x x' z z' : List Char} {mark mark' : Char} (h : mark' ∉ x)
    (h' : mark ∉ x') (heq : x ++ mark :: z = x' ++ mark' :: z') :
    x = x' ∧ mark = mark' ∧ z = z' := by
  induction x generalizing x' with
  | nil =>
    cases x' with
    | nil => simpa using heq
    | cons c x' =>
      obtain ⟨rfl, _⟩ := List.cons.inj heq
      exact absurd List.mem_cons_self h'
  | cons c x ih =>
    cases x' with
    | nil =>
      obtain ⟨rfl, _⟩ := List.cons.inj heq
      exact absurd List.mem_cons_self h
    | cons c' x' =>
      obtain ⟨rfl, htail⟩ := List.cons.inj heq
      have hx := List.not_mem_of_not_mem_cons h
      obtain ⟨rfl, hz⟩ := ih hx (List.not_mem_of_not_mem_cons h') htail
      exact ⟨rfl, hz⟩

end Delimiting

section Hexadecimal

def hexDigits : List Char := "0123456789abcdef".toList

def hexValue (digits : List Char) : Nat :=
  digits.foldl (fun value c => 16 * value + hexDigits.idxOf c) 0

theorem digitChar_hex : ∀ n < 16, n.digitChar ∈ hexDigits ∧ hexDigits.idxOf n.digitChar = n := by
  decide

theorem mem_toDigits_hex {n : Nat} {c : Char} (h : c ∈ Nat.toDigits 16 n) : c ∈ hexDigits := by
  induction n using Nat.strongRecOn with
  | ind n ih =>
    rw [Nat.toDigits_eq_if (by decide)] at h
    split at h
    · rename_i hn
      obtain rfl := List.mem_singleton.mp h
      exact (digitChar_hex n hn).1
    · rename_i hn
      rcases List.mem_append.mp h with h | h
      · exact ih (n / 16) (by omega) h
      · obtain rfl := List.mem_singleton.mp h
        exact (digitChar_hex (n % 16) (by omega)).1

theorem hexValue_toDigits (n : Nat) : hexValue (Nat.toDigits 16 n) = n := by
  induction n using Nat.strongRecOn with
  | ind n ih =>
    rw [Nat.toDigits_eq_if (by decide)]
    split
    · rename_i hn
      simpa [hexValue] using (digitChar_hex n hn).2
    · rename_i hn
      have high := ih (n / 16) (by omega)
      have low := (digitChar_hex (n % 16) (by omega)).2
      unfold hexValue at high ⊢
      rw [List.foldl_append, high, List.foldl_cons, low, List.foldl_nil]
      omega

end Hexadecimal

inductive Spells (escapes : List (Char × Char)) (numbers : Char → List Char → Prop) (c : Char) :
    List Char → Prop where
  | escape {k} (h : (c, k) ∈ escapes) : Spells escapes numbers c ['\\', k]
  | number {number} (h : numbers c number) : Spells escapes numbers c ('\\' :: 'u' :: number)
  | plain (h : c ∉ escapes.map Prod.fst) : Spells escapes numbers c [c]

/-- What quoted text needs of its escapes: the backslash and the quote have some, and what follows
the backslash tells which of them it is. -/
structure Escapes (escapes : List (Char × Char)) : Prop where
  backslash : '\\' ∈ escapes.map Prod.fst
  quote : '"' ∈ escapes.map Prod.fst
  unique : ∀ escape ∈ escapes, escape.2 ≠ 'u' ∧
    ∀ other ∈ escapes, other.2 = escape.2 → other.1 = escape.1

def Numbered (numbers : Char → List Char → Prop) : Prop :=
  ∀ {c c' number number' r r'}, numbers c number → numbers c' number' →
    number ++ r = number' ++ r' → c = c' ∧ r = r'

section Quoted

variable {escapes : List (Char × Char)} {numbers : Char → List Char → Prop}
  {write : Char → List Char}

theorem Spells.delimits (he : Escapes escapes) (hn : Numbered numbers)
    (hw : ∀ c, Spells escapes numbers c (write c)) : SelfDelimiting write := by
  intro c c' r r' heq
  have hc := hw c
  have hc' := hw c'
  generalize write c = x at heq hc
  generalize write c' = x' at heq hc'
  have bare {c : Char} (h : c ∉ escapes.map Prod.fst) : c ≠ '\\' :=
    fun heq => h (heq ▸ he.backslash)
  cases hc with
  | escape h =>
    cases hc' with
    | escape h' =>
      obtain ⟨_, heq⟩ := List.cons.inj heq
      obtain ⟨rfl, hr⟩ := List.cons.inj heq
      exact ⟨(he.unique _ h').2 _ h rfl, hr⟩
    | number => exact absurd (List.cons.inj (List.cons.inj heq).2).1 (he.unique _ h).1
    | plain h' => exact absurd (List.cons.inj heq).1.symm (bare h')
  | number h =>
    cases hc' with
    | escape h' => exact absurd (List.cons.inj (List.cons.inj heq).2).1.symm (he.unique _ h').1
    | number h' => exact hn h h' (List.cons.inj (List.cons.inj heq).2).2
    | plain h' => exact absurd (List.cons.inj heq).1.symm (bare h')
  | plain h =>
    cases hc' with
    | escape | number => exact absurd (List.cons.inj heq).1 (bare h)
    | plain => exact List.cons.inj heq

/-- A spelling does not begin with the quote that ends the text. -/
theorem Spells.append_ne_quote {c : Char} {x r r' : List Char} (he : Escapes escapes)
    (h : Spells escapes numbers c x) : x ++ r ≠ '"' :: r' := by
  cases h with
  | escape | number => simp
  | plain hc =>
    rintro ⟨⟩
    exact hc he.quote

/-- Quoted text says where it ends and which text it is. -/
theorem quoted_delimits (he : Escapes escapes) (hn : Numbered numbers)
    (hw : ∀ c, Spells escapes numbers c (write c)) :
    SelfDelimiting fun text : List Char => '"' :: (text.flatMap write ++ ['"']) := by
  intro text text' r r' heq
  simp only [List.cons_append, List.append_assoc, List.nil_append, List.cons.injEq,
    true_and] at heq
  exact flatMap_delimits (fun c _ => Spells.delimits he hn hw c)
    (fun c _ _ => (hw c).append_ne_quote he) heq

end Quoted

def escapes : List (Char × Char) :=
  [('\x00', '0'), ('\t', 't'), ('\r', 'r'), ('\n', 'n'), ('"', '"'), ('\\', '\\')]

theorem escapes_valid : Escapes escapes := ⟨by decide, by decide, by decide⟩

def bracedNumber (c : Char) : List Char := '{' :: (Nat.toDigits 16 c.toNat ++ ['}'])

theorem literalChar_spells (hidden : Char → Bool) (c : Char) :
    Spells escapes (fun c number => number = bracedNumber c) c (literalChar hidden c) := by
  unfold literalChar
  split
  iterate 6 exact .escape (by decide)
  split
  · exact .number rfl
  · refine .plain ?_
    simp_all [escapes]

/-- Digits hold no brace, so the closing one ends the number. -/
theorem bracedNumber_numbered : Numbered fun c number => number = bracedNumber c := by
  rintro c c' _ _ r r' rfl rfl heq
  simp only [bracedNumber, List.cons_append, List.append_assoc, List.nil_append, List.cons.injEq,
    true_and] at heq
  have digits (n : Nat) : '}' ∉ Nat.toDigits 16 n := fun hm =>
    absurd (mem_toDigits_hex hm) (by decide)
  obtain ⟨hdigits, _, hr⟩ := append_mark_inj (digits _) (digits _) heq
  have hnumber := congrArg hexValue hdigits
  rw [hexValue_toDigits, hexValue_toDigits] at hnumber
  exact ⟨Char.toNat_inj.mp hnumber, hr⟩

/-- A literal says where it ends and which text it is. -/
theorem literalWith_delimits (hidden : Char → Bool) : SelfDelimiting (literalWith hidden) :=
  quoted_delimits escapes_valid bracedNumber_numbered (literalChar_spells hidden)

/-- Line feeds are spelled by an escape. -/
theorem newline_notMem_literalChar (hidden : Char → Bool) (c : Char) :
    '\n' ∉ literalChar hidden c := by
  have hc := literalChar_spells hidden c
  generalize literalChar hidden c = x at hc
  cases hc with
  | escape h =>
    have short : ∀ escape ∈ escapes, escape.2 ≠ '\n' := by decide
    simpa using (short _ h).symm
  | number h =>
    have digits : '\n' ∉ Nat.toDigits 16 c.toNat := fun hm =>
      absurd (mem_toDigits_hex hm) (by decide)
    simpa [h, bracedNumber] using digits
  | plain hc =>
    rw [List.mem_singleton]
    rintro rfl
    exact hc (by decide)

theorem newline_notMem_literalWith (hidden : Char → Bool) (text : List Char) :
    '\n' ∉ literalWith hidden text := by
  simp [literalWith, newline_notMem_literalChar]

end ShellLex.Text
