import Mathlib.Data.List.TakeWhile
import ShellLex.Text.Blank
import ShellLex.Text.Line
/-!
Joined lines read back, and what trimming leaves as it is. Of a line that is read back nothing is
lost but a carriage return at its end; that does not matter to a line that is trimmed anyway.
-/
namespace ShellLex.Text

section Trimming

variable {text : List Char}

theorem trimLeft_eq_self : trimLeft text = text ↔ ∀ c ∈ text.head?, isBlank c = false := by
  rw [trimLeft, List.dropWhile_eq_self_iff]
  cases text with
  | nil => simp
  | cons c text => simp

theorem trimRight_eq_self : trimRight text = text ↔ ∀ c ∈ text.getLast?, isBlank c = false := by
  rw [trimRight, List.reverse_eq_iff, trimLeft_eq_self, List.head?_reverse]

/-- A text is trimmed if neither end of it is blank. -/
theorem trim_eq_self : trim text = text ↔
    (∀ c ∈ text.head?, isBlank c = false) ∧ ∀ c ∈ text.getLast?, isBlank c = false := by
  rw [← trimLeft_eq_self, ← trimRight_eq_self]
  constructor
  · intro h
    have right : (trimRight (trimLeft text)).length ≤ (trimLeft text).length := by
      simpa [trimRight, trimLeft] using
        (List.dropWhile_suffix (l := (trimLeft text).reverse) isBlank).length_le
    have left : trimLeft text <:+ text := List.dropWhile_suffix isBlank
    rw [show trimRight (trimLeft text) = text from h] at right
    have hl : trimLeft text = text := left.eq_of_length (Nat.le_antisymm left.length_le right)
    rw [trim, hl] at h
    exact ⟨hl, h⟩
  · rintro ⟨hl, hr⟩
    rw [trim, hl, hr]

/-- Blanks at the ends do not matter. -/
theorem trim_cons {c : Char} (hc : isBlank c) : trim (c :: text) = trim text := by
  rw [trim, trim, trimLeft, List.dropWhile_cons_of_pos hc, trimLeft]

theorem trim_concat {c : Char} (hc : isBlank c) : trim (text ++ [c]) = trim text := by
  have right (start : List Char) : trimRight (start ++ [c]) = trimRight start := by
    simp [trimRight, trimLeft, hc]
  rw [trim, trim, trimLeft, List.dropWhile_append]
  split
  · rename_i he
    rw [List.isEmpty_iff] at he
    simp [trimLeft, he, hc, trimRight]
  · exact right _

theorem trim_dropReturn (line : List Char) : trim (dropReturn line) = trim line := by
  unfold dropReturn
  split
  · rename_i hr
    obtain ⟨start, rfl⟩ := List.getLast?_eq_some_iff.mp hr
    rw [List.dropLast_concat, trim_concat (by decide)]
  · rfl

end Trimming

structure Steady (line : List Char) : Prop where
  single : '\n' ∉ line
  unreturned : line.getLast? ≠ some '\r'

section Steady

variable {line text : List Char}

theorem Steady.of_trimmed (single : '\n' ∉ line) (trimmed : trim line = line) : Steady line where
  single := single
  unreturned hr := absurd ((trim_eq_self.mp trimmed).2 _ hr) (by decide)

theorem Steady.append (h : Steady line) (ht : Steady text) : Steady (line ++ text) where
  single := by simp [h.single, ht.single]
  unreturned := by
    rw [List.getLast?_append]
    cases hl : text.getLast? with
    | none => simpa using h.unreturned
    | some c => simpa [hl] using ht.unreturned

theorem Steady.dropReturn (h : Steady line) : dropReturn line = line := if_neg h.unreturned

end Steady

section Lines

variable {line text : List Char}

theorem notMem_of_mem_splitOn {mark : Char} (h : line ∈ text.splitOn mark) : mark ∉ line := by
  induction text generalizing line with
  | nil =>
    rw [List.splitOn_nil, List.mem_singleton] at h
    simp [h]
  | cons c text ih =>
    rw [List.splitOn_cons_eq_if_modifyHead] at h
    split at h
    · rcases List.mem_cons.mp h with rfl | h
      · exact List.not_mem_nil
      · exact ih h
    · rename_i hc
      obtain ⟨first, rest, hsplit⟩ := List.exists_cons_of_ne_nil (List.splitOn_ne_nil mark text)
      rw [hsplit, List.modifyHead_cons] at h
      rcases List.mem_cons.mp h with rfl | h
      · have hne : mark ≠ c := fun he => hc (by simp [he])
        exact List.not_mem_cons_of_ne_of_not_mem hne (ih (hsplit ▸ List.mem_cons_self))
      · exact ih (hsplit ▸ List.mem_cons_of_mem _ h)

theorem linesFrom_append (h : '\n' ∉ line) (current : List Char) :
    linesFrom current (line ++ text) = linesFrom (line.reverse ++ current) text := by
  induction line generalizing current with
  | nil => rfl
  | cons c line ih =>
    have hc : c ≠ '\n' := fun he => h (he ▸ List.mem_cons_self)
    rw [List.cons_append, linesFrom, if_neg hc, ih (List.not_mem_of_not_mem_cons h),
      List.reverse_cons, List.append_assoc, List.singleton_append]

theorem lines_append (h : '\n' ∉ line) :
    lines (line ++ '\n' :: text) = dropReturn line :: lines text := by
  rw [lines, linesFrom_append h]
  simp [linesFrom, lines]

/-- A last line that is not ended keeps its carriage return, and is lost if it is empty. -/
theorem lines_last (h : '\n' ∉ line) : lines line = if line.isEmpty then [] else [line] := by
  have run : linesFrom [] (line ++ []) = linesFrom (line.reverse ++ []) [] := linesFrom_append h []
  rw [List.append_nil, List.append_nil] at run
  simp [lines, run, linesFrom]

theorem lines_intercalate {init : List (List Char)} (h : ∀ l ∈ init, '\n' ∉ l) (last : List Char) :
    lines (List.intercalate ['\n'] (init ++ [last])) = init.map dropReturn ++ lines last := by
  induction init with
  | nil => simp
  | cons first init ih =>
    obtain ⟨hfirst, hinit⟩ := List.forall_mem_cons.mp h
    obtain ⟨next, rest, hnext⟩ := List.exists_cons_of_ne_nil (l := init ++ [last]) (by simp)
    rw [List.cons_append, hnext, List.intercalate_cons_cons, ← hnext, List.append_assoc,
      List.singleton_append, lines_append hfirst, ih hinit, List.map_cons, List.cons_append]

end Lines

end ShellLex.Text
