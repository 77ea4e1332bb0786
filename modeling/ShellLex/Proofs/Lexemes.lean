import Mathlib.Data.List.TakeWhile
import ShellLex.Proofs.Locality
import ShellLex.Proofs.Placement
/-!
What leaves hold. The shape of a leaf follows from its kind and its place: it is a run of one class
of bytes that the next byte would not continue, the longest word of a table, or one of a few short
forms. The shapes are those of bytes; they know of no scan.
-/
namespace ShellLex

namespace Lexeme

/-- `data` are accepted bytes, and the first of `rest` is not accepted. -/
structure Run (accept : UInt8 → Bool) (data rest : List UInt8) : Prop where
  nonempty : data ≠ []
  accepted : ∀ b ∈ data, accept b = true
  maximal : ∀ b, rest.head? = some b → accept b = false

/-- No word of the table that is longer than `data` stands in its place. -/
structure Longest (table : List (List UInt8)) (data rest : List UInt8) : Prop where
  mem : data ∈ table
  longest : ∀ word ∈ table, word <+: data ++ rest → word.length ≤ data.length

inductive Reference : (data rest : List UInt8) → Prop where
  | bare : Reference (ascii "$") []
  | short {b rest} (hl : isLetter b = false) (hb : b ∉ ascii "(\x7b") :
      Reference (ascii "$" ++ [b]) rest
  | name {letters rest} (h : Run isLetter letters rest) : Reference (ascii "$" ++ letters) rest

inductive Operand : (data rest : List UInt8) → Prop where
  | hexadecimal {start digits rest} (hs : start ∈ ["0x", "0X"].map ascii)
      (hd : ∀ b ∈ digits, isHexDigit b = true)
      (hr : ∀ b, rest.head? = some b → isHexDigit b = false) : Operand (start ++ digits) rest
  | decimal {digits rest} (h : Run isDigit digits rest)
      (hs : ∀ start ∈ ["0x", "0X"].map ascii, ¬ start <+: digits ++ rest) : Operand digits rest
  | name {bytes rest} (h : Run isNameByte bytes rest)
      (hs : ∀ b, bytes.head? = some b → isNameStart b = true) : Operand bytes rest

/-- What a leaf of each kind holds in a place, with `rest` after it. -/
def Shape (place : Place) : Kind → (data rest : List UInt8) → Prop
  | .space, data, rest => Run isBlank data rest
  | .newLine, data, _ => data = ascii "\n"
  | .comment, data, rest => ascii "#" <+: data ∧ Run (role · != .newline) data rest
  | .escaped, data, rest => (∃ b, data = ascii "\\" ++ [b]) ∨ data = ascii "\\" ∧ rest = []
  | .operator, data, rest => Longest (operators ++ marks) data rest
  | .keyword, data, rest => data ∈ keywords ∧ Run isPlain data rest
  | .variable, data, rest => Reference data rest ∨ place = .arithmetic ∧ Operand data rest
  | .term, data, rest =>
    match place with
    | .script => False
    | .word => data ∈ marks ∨ Run isPlain data rest
    | .quotes => Run Scan.isQuotable data rest
    | .arithmetic => Longest arithmeticOperators data rest
  | .unknown, data, rest => place = .arithmetic ∧ ∃ b, data = [b] ∧
      (role b).leadsArithmetic = false ∧ isNameByte b = false ∧
      ∀ word ∈ arithmeticOperators, ¬ word <+: data ++ rest
  | .quote, _, _ => False

variable {table : List (List UInt8)} {accept : UInt8 → Bool} {b : UInt8}
  {bytes data rest : List UInt8}

theorem role_mark (h : role b = .mark) : [b] ∈ marks := by
  unfold role at h
  split at h <;> first | decide | simp at h

theorem drop_run (accept : UInt8 → Bool) (bytes : List UInt8) :
    bytes.drop (bytes.takeWhile accept).length = bytes.dropWhile accept := by
  have h : (bytes.takeWhile accept ++ bytes.dropWhile accept).drop
      (bytes.takeWhile accept).length = bytes.dropWhile accept := List.drop_left
  rwa [List.takeWhile_append_dropWhile] at h

theorem not_accept_drop {c : UInt8}
    (h : (bytes.drop (bytes.takeWhile accept).length).head? = some c) : accept c = false := by
  have hc := List.head?_dropWhile_not accept bytes
  rw [drop_run] at h
  rw [h] at hc
  simpa using hc

theorem Run.take (hb : accept b) :
    Run accept ((b :: bytes).take ((b :: bytes).takeWhile accept).length)
      ((b :: bytes).drop ((b :: bytes).takeWhile accept).length) where
  nonempty := by simp [take_run, hb]
  accepted _ hm := by
    rw [take_run] at hm
    exact List.mem_takeWhile_imp hm
  maximal _ hc := not_accept_drop hc

/-- A word of one byte is the longest where no other begins with its byte. -/
theorem Longest.of_single (hm : [b] ∈ table)
    (h : ∀ word ∈ table, word.head? = some b → word.length ≤ 1) : Longest table [b] rest where
  mem := hm
  longest word hw hp := by
    cases word with
    | nil => exact Nat.zero_le _
    | cons c word =>
      obtain ⟨rfl, _⟩ := List.cons_prefix_cons.mp hp
      exact h _ hw rfl

/-- What a table of longer words before shorter ones finds first is the longest. -/
theorem Longest.of_first? {word : List UInt8} (ht : Graded table)
    (hf : first? table bytes = some word) :
    Longest table (bytes.take word.length) (bytes.drop word.length) := by
  have hp : word <+: bytes := by simpa [first?] using List.find?_some hf
  have htake : bytes.take word.length = word := (List.prefix_iff_eq_take.mp hp).symm
  rw [htake]
  refine ⟨List.mem_of_find?_eq_some hf, fun other hm hother => ?_⟩
  rw [← htake, List.length_take_of_le hp.length_le, List.take_append_drop] at hother
  exact first?_longest ht hf hm hother

theorem longest_operator
    (h : role b ∈ [.separator, .openParen, .closeParen, .redirection]) :
    Longest (operators ++ marks) ((b :: bytes).take (operator (b :: bytes)))
      ((b :: bytes).drop (operator (b :: bytes))) := by
  obtain ⟨word, hm, hf, hp⟩ := first?_operators bytes (role_operator h)
  have hsize : operator (b :: bytes) = word.length := by simp [operator, hf]
  have longest := Longest.of_first? graded_operators hf
  rw [hsize]
  refine ⟨List.mem_append_left _ longest.mem, fun other hother hpre => ?_⟩
  rcases List.mem_append.mp hother with hop | hmark
  · exact longest.longest other hop hpre
  · have hone : other.length = 1 := (by decide : ∀ mark ∈ marks, mark.length = 1) other hmark
    have hpos : 0 < word.length := (first?_bounds hf (by decide)).1
    rw [List.length_take_of_le hp.length_le, hone]
    exact hpos

theorem longest_mark (hm : data ∈ marks) : Longest (operators ++ marks) data rest := by
  have alone : ∀ mark ∈ marks, ∀ word ∈ operators ++ marks, word.head? = mark.head? →
      word.length ≤ 1 := by decide
  obtain ⟨b, rfl⟩ : ∃ b, data = [b] := by
    have hone := (by decide : ∀ mark ∈ marks, mark.length = 1) data hm
    exact List.length_eq_one_iff.mp hone
  exact .of_single (List.mem_append_right _ hm) (alone [b] hm)

theorem longest_paren (h : role b = .openParen ∨ role b = .closeParen) :
    Longest (operators ++ marks) [b] rest := by
  rcases h with h | h
  · obtain rfl := Scan.eq_of_role.2.1 h
    exact .of_single (by decide) (by decide)
  · obtain rfl := Scan.eq_of_role.2.2.1 h
    exact .of_single (by decide) (by decide)

theorem longest_arithmetic {size : Nat} (h : arithmeticOperator? bytes = some size) :
    Longest arithmeticOperators (bytes.take size) (bytes.drop size) := by
  obtain ⟨word, hf, rfl⟩ := Option.map_eq_some_iff.mp h
  exact .of_first? graded_arithmeticOperators hf

theorem not_arithmeticOperator (h : arithmeticOperator? bytes = none) :
    ∀ word ∈ arithmeticOperators, ¬ word <+: bytes := by
  intro word hm
  have hn := List.find?_eq_none.mp (Option.map_eq_none_iff.mp h) word hm
  simpa using hn

theorem operand_number (hb : isDigit b) :
    Operand ((b :: bytes).take (number (b :: bytes)))
      ((b :: bytes).drop (number (b :: bytes))) := by
  cases bytes with
  | nil =>
    have hsize : number [b] = ([b].takeWhile isDigit).length := by simp [number]
    rw [hsize]
    refine .decimal (.take hb) fun start hs hp => ?_
    rw [List.take_append_drop] at hp
    have two := (by decide : ∀ start ∈ ["0x", "0X"].map ascii, start.length = 2) start hs
    have := hp.length_le
    rw [two] at this
    simp at this
  | cons c bytes =>
    rw [number_cons]
    split
    · rename_i hc
      obtain ⟨rfl, hx⟩ := hc
      rw [Nat.add_comm, List.take_succ_cons, List.take_succ_cons, List.drop_succ_cons,
        List.drop_succ_cons, take_run]
      have hs : [0x30, c] ∈ ["0x", "0X"].map ascii := by rcases hx with rfl | rfl <;> decide
      exact .hexadecimal hs (fun _ hm => List.mem_takeWhile_imp hm) fun _ => not_accept_drop
    · rename_i hc
      refine .decimal (.take hb) fun start hs hp => hc ?_
      rw [List.take_append_drop] at hp
      have two : start ∈ [[0x30, 0x78], [0x30, 0x58]] := hs
      obtain rfl | rfl : start = [0x30, 0x78] ∨ start = [0x30, 0x58] := by simpa using two
      · simp_all
      · simp_all

theorem reference_dollar (hb : role b = .dollar) (hp : ¬ ascii "$(" <+: b :: bytes)
    (hu : ¬ ascii "$\x7b" <+: b :: bytes) :
    Reference ((b :: bytes).take (reference (b :: bytes)))
      ((b :: bytes).drop (reference (b :: bytes))) := by
  obtain rfl := Scan.eq_of_role.2.2.2.2 hb
  cases bytes with
  | nil => exact .bare
  | cons c bytes =>
    rw [reference]
    split
    · rename_i hc
      have run : Run isLetter ((c :: bytes).take ((c :: bytes).takeWhile isLetter).length)
          ((c :: bytes).drop ((c :: bytes).takeWhile isLetter).length) := .take hc
      rw [List.takeWhile_cons_of_pos hc, List.length_cons] at run
      rw [Nat.add_comm]
      exact .name run
    · rename_i hc
      refine .short (by simpa using hc) ?_
      intro hm
      have two : c ∈ [0x28, 0x7B] := hm
      obtain rfl | rfl : c = 0x28 ∨ c = 0x7B := by simpa using two
      · exact hp ⟨bytes, rfl⟩
      · exact hu ⟨bytes, rfl⟩

end Lexeme

def Leaf.Formed (source : List UInt8) (place : Place) (l : Leaf) : Prop :=
  ∃ rest, source.drop l.pos = l.data ++ rest ∧ Lexeme.Shape place l.kind l.data rest

def Node.Formed (source : List UInt8) (place : Place) (node : Node) : Prop :=
  node.Placed (Leaf.Formed source) place

variable {source bytes : List UInt8} {goal : Goal} {place : Place} {kind : Kind} {size : Nat}

/-- A leaf that is lexed has its shape, in every place that its goal fills. -/
theorem Lexes.shape (h : Lexes goal bytes kind size) (hp : goal.Fills place) :
    Lexeme.Shape place kind (bytes.take size) (bytes.drop size) := by
  cases h with
  | blanks _ hb => exact .take (by simp [isBlank, hb])
  | @comment _ b bytes hb =>
    have accepted : (role b != .newline) = true := by simp [hb]
    obtain rfl : b = 0x23 := by
      unfold role at hb
      split at hb <;> first | rfl | simp at hb
    have run : (0x23 :: bytes).takeWhile (role · != .newline) =
        0x23 :: bytes.takeWhile (role · != .newline) := List.takeWhile_cons_of_pos accepted
    refine ⟨?_, .take accepted⟩
    rw [Lexeme.take_run, run]
    exact ⟨_, rfl⟩
  | newline hb | arithmeticNewline hb =>
    unfold role at hb
    split at hb <;> first | rfl | simp at hb
  | separator _ hb =>
    refine Lexeme.longest_operator ?_
    rcases hb with hb | hb | hb <;> simp [hb]
  | redirection _ hb => exact Lexeme.longest_operator (by simp [hb])
  | caseIn hb hw =>
    refine ⟨?_, .take hb⟩
    rw [Lexeme.take_run, hw]
    decide
  | openPattern hb => exact Lexeme.longest_paren (Or.inl hb)
  | closePattern hb => exact Lexeme.longest_paren (Or.inr hb)
  | @escape _ b bytes _ hb =>
    obtain rfl := Scan.eq_of_role.2.2.2.1 hb
    cases bytes with
    | nil => exact Or.inr ⟨rfl, rfl⟩
    | cons c bytes =>
      have two : Lexeme.escape (0x5C :: c :: bytes) = 2 := by simp [Lexeme.escape]
      rw [two]
      exact Or.inl ⟨c, rfl⟩
  | quoted hb =>
    obtain rfl : place = .quotes := hp
    exact .take hb
  | number hb => exact Or.inr ⟨hp, Lexeme.operand_number hb⟩
  | @name _ b bytes hb =>
    have accepted : isNameByte b = true := by simp [isNameByte, hb]
    refine Or.inr ⟨hp, .name (.take accepted) ?_⟩
    intro c hc
    rw [Lexeme.take_run, List.takeWhile_cons_of_pos accepted] at hc
    obtain rfl : b = c := by simpa using hc
    exact hb
  | arithmeticOperator _ ho =>
    obtain rfl : place = .arithmetic := hp
    exact Lexeme.longest_arithmetic ho
  | @unknown _ b bytes hb hd hn ho =>
    exact ⟨hp, b, rfl, hb, by simp [isNameByte, hd, hn], Lexeme.not_arithmeticOperator ho⟩
  | mark hb =>
    obtain rfl : place = .word := hp
    exact Or.inl (Lexeme.role_mark hb)
  | plain hb =>
    obtain rfl : place = .word := hp
    exact Or.inr (.take hb)
  | dollar hb hparen hbrace => exact Or.inl (Lexeme.reference_dollar hb hparen hbrace)

/-- The only part of a word has the shape of what it is taken for instead. -/
theorem Leaf.formed_settles (source : List UInt8) : Leaf.Settles source (Leaf.Formed source) where
  lexed h hp := ⟨_, (List.take_append_drop _ _).symm, h.shape hp⟩
  keyword h hk hd := by
    obtain ⟨rest, hdrop, hshape⟩ := h
    rw [hk] at hshape
    have apart : ∀ word ∈ Lexeme.keywords, word ∉ Lexeme.marks := by decide
    exact ⟨rest, hdrop, hd, hshape.resolve_left (apart _ hd)⟩
  operator h _ hd := by
    obtain ⟨rest, hdrop, _⟩ := h
    exact ⟨rest, hdrop, Lexeme.longest_mark hd⟩

namespace Lexer

/-- Whatever was called before, each leaf of a node that is returned has exactly the shape of its
kind and place, and the bytes after it do not go on with it. -/
theorem get_formed {lexer after : Lexer} {node : Node} (h : Reachable source lexer)
    (hget : lexer.get = (.ok (some node), after)) : node.Formed source .script := by
  rcases get_cases h.fits with hc | ⟨found, s, hc, hr⟩ | ⟨e, s, hc, _⟩
  · simp [hc] at hget
  · obtain rfl : found = node := by simpa [hc] using congrArg Prod.fst hget
    exact (hr.reads.placedAll (Leaf.formed_settles source) rfl).1
  · simp [hc] at hget

/-- Leaves in quotes, in arithmetic and in a substitution, and a dollar at the end of the source. -/
theorem get_formed_word :
    let quoted := Node.enclosed .quotes ⟨.quote, ascii "\"", 0⟩
      [.leaf ⟨.escaped, ascii "\\$", 1⟩, .leaf ⟨.term, ascii "q", 3⟩] ⟨.quote, ascii "\"", 4⟩
    let sum := Node.enclosed .arithmetic ⟨.quote, ascii "$((", 5⟩
      [.leaf ⟨.variable, ascii "0xF", 8⟩, .leaf ⟨.variable, ascii "g", 11⟩,
        .leaf ⟨.term, ascii "++", 12⟩] ⟨.quote, ascii "))", 14⟩
    let command := Node.enclosed .substitution ⟨.quote, ascii "$(", 16⟩
      [.leaf ⟨.keyword, ascii "if", 18⟩, .leaf ⟨.operator, ascii "&&", 20⟩] ⟨.quote, ascii ")", 22⟩
    let node := Node.word [quoted, sum, command, .leaf ⟨.variable, ascii "$", 23⟩]
    (start (ascii "\"\\$q\"$((0xFg++))$(if&&)$")).get.1 = .ok (some node) ∧
      node.Formed (ascii "\"\\$q\"$((0xFg++))$(if&&)$") .script := by
  intro quoted sum command node
  have hnode : (start (ascii "\"\\$q\"$((0xFg++))$(if&&)$")).get.1 = .ok (some node) := by rfl
  exact ⟨hnode, get_formed .start (Prod.ext hnode rfl)⟩

end Lexer

end ShellLex
