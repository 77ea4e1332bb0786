import ShellLex.Proofs.Calls
import ShellLex.Proofs.Evidence
import ShellLex.Proofs.Lines
import ShellLex.Proofs.Literals
import ShellLex.Node.Sexpr
/-!
What lexing answers, as lines of text. Every s-expression and every message is a line of its own,
trimmed and other than the mark at the end of an expectation, whatever the source holds.
-/
namespace ShellLex

structure Text.Tidy (line : List Char) : Prop where
  nonempty : line ≠ []
  trimmed : trim line = line
  single : '\n' ∉ line
  unmarked : line ≠ "===".toList

namespace Text.Tidy

/-- A line that opens with some sign other than that of the mark, and closes with one. -/
theorem of_ends {line : List Char} (hopens : line.head?.any fun c => !isBlank c && c != '=')
    (hcloses : line.getLast?.any fun c => !isBlank c) (single : '\n' ∉ line) : Tidy line := by
  obtain ⟨first, hfirst, opens⟩ := (Option.any_eq_true _ _).mp hopens
  obtain ⟨last, hlast, closes⟩ := (Option.any_eq_true _ _).mp hcloses
  simp only [Bool.and_eq_true, Bool.not_eq_true', bne_iff_ne, ne_eq] at opens closes
  refine ⟨?_, ?_, single, ?_⟩
  · rintro rfl
    nomatch hfirst
  · rw [trim_eq_self, hfirst, hlast]
    exact ⟨fun _ hc => Option.some.inj hc ▸ opens.1, fun _ hc => Option.some.inj hc ▸ closes⟩
  · rintro rfl
    exact absurd hopens (by decide)

theorem of_parts {a b c d : String} (hopens : a.toList.head?.any fun c => !isBlank c && c != '=')
    (hcloses : d.toList.getLast?.any fun c => !isBlank c)
    (single : ∀ part ∈ [a, b, c, d], '\n' ∉ part.toList) : Tidy (a ++ b ++ c ++ d).toList := by
  obtain ⟨first, hfirst, _⟩ := (Option.any_eq_true _ _).mp hopens
  obtain ⟨last, hlast, _⟩ := (Option.any_eq_true _ _).mp hcloses
  simp only [List.forall_mem_cons, List.not_mem_nil] at single
  refine .of_ends ?_ ?_ ?_
  · simpa [List.head?_append, hfirst] using hopens
  · simpa [List.getLast?_append, hlast] using hcloses
  · simp [single]

end Text.Tidy

namespace Sexpr

theorem newline_notMem_leaf (l : Leaf) : '\n' ∉ leaf l := by
  have name : '\n' ∉ l.kind.name.toList := by cases l.kind <;> decide
  have literal : '\n' ∉ Text.literal (Utf8.lossy l.data) := Text.newline_notMem_literalWith _ _
  simpa [leaf, name] using literal

mutual

theorem newline_notMem_node (n : Node) : '\n' ∉ node n := by
  match n with
  | .leaf l => exact newline_notMem_leaf l
  | .word nodes =>
    have inside := newline_notMem_members nodes
    simpa [node] using inside
  | .enclosed form _ nodes _ =>
    have inside := newline_notMem_members nodes
    have name : '\n' ∉ (head form).toList := by cases form <;> decide
    simpa [node, name] using inside

theorem newline_notMem_members (nodes : List Node) : '\n' ∉ members nodes := by
  match nodes with
  | [] => simp [members]
  | n :: nodes =>
    have first := newline_notMem_node n
    have rest := newline_notMem_members nodes
    simp [members, first, rest]

end

theorem node_parenthesized (n : Node) : ∃ inside, node n = '(' :: (inside ++ [')']) := by
  match n with
  | .leaf l =>
    refine ⟨l.kind.name.toList ++ ' ' :: Text.literal (Utf8.lossy l.data), ?_⟩
    simp [node, leaf]
  | .word nodes => exact ⟨_, rfl⟩
  | .enclosed form _ nodes _ => exact ⟨_, rfl⟩

theorem node_tidy (n : Node) : Text.Tidy (node n) := by
  have single := newline_notMem_node n
  obtain ⟨inside, hn⟩ := node_parenthesized n
  have closes : (node n).getLast? = some ')' := by
    rw [hn, ← List.cons_append, List.getLast?_concat]
  exact .of_ends (by rw [hn]; rfl) (by rw [closes]; rfl) single

end Sexpr

namespace LexError

theorem isBlank_of_isDigit {c : Char} (h : c.isDigit) : Text.isBlank c = false ∧ c ≠ '\n' := by
  have range : 48 ≤ c.toNat ∧ c.toNat ≤ 57 := by
    simpa [Char.isDigit, UInt32.le_iff_toNat_le] using h
  constructor
  · simp [Text.isBlank]
    omega
  · rintro rfl
    exact absurd h (by decide)

theorem isDigit_of_mem_toDigits {n : Nat} {c : Char} (h : c ∈ Nat.toDigits 10 n) : c.isDigit :=
  Nat.isDigit_of_mem_toDigits (by decide) (by decide) h

@[simp] theorem newline_notMem_toDigits (n : Nat) : '\n' ∉ Nat.toDigits 10 n := fun h =>
  (isBlank_of_isDigit (isDigit_of_mem_toDigits h)).2 rfl

theorem toString_closes (n : Nat) : (toString n).toList.getLast?.any fun c => !Text.isBlank c := by
  have hne : Nat.toDigits 10 n ≠ [] := Nat.toDigits_ne_nil
  have digit := isDigit_of_mem_toDigits (List.getLast_mem hne)
  rw [Nat.toString_eq_ofList_toDigits, String.toList_ofList, List.getLast?_eq_some_getLast hne,
    Option.any_some, (isBlank_of_isDigit digit).1]
  rfl

variable {source : List UInt8} {stop : Nat}

/-- The message of an error that shows in a source is a tidy line. -/
theorem message_tidy {e : LexError} (h : e.cause.Shows source e.pos stop) :
    Text.Tidy e.message.toList := by
  obtain ⟨cause, pos⟩ := e
  have last := toString_closes pos
  cases cause with
  | unexpected found =>
    obtain ⟨_, b, _, _, rfl, hb⟩ := h
    have hfound := List.all_eq_true.mp
      (by decide : Lexeme.special.all fun b => '\n' ≠ Char.ofNat b.toNat) b (Lexeme.mem_special hb)
    exact .of_parts (by decide) last (by simpa using hfound)
  | expectedIn got =>
    have literal : '\n' ∉ Text.literal got.toList := Text.newline_notMem_literalWith _ _
    exact .of_parts (by decide) last (by simp [literal])
  | unsupported what =>
    obtain ⟨rfl, _⟩ := h
    exact .of_parts (by decide) (by decide) (by simp)
  | unterminated d =>
    have name : '\n' ∉ d.describe.toList := by cases d <;> decide
    exact .of_parts (by decide) last (by simp [name])
  | tooDeep limit =>
    exact .of_parts (by decide) last (by simp)
  | internal reason => exact h.elim

end LexError

end ShellLex
