import Mathlib.Data.List.TakeWhile
import ShellLex.Proofs.Completeness.Runs
/-!
Any bytes in double quotes. A backslash before each byte that is special there makes the rest stand
for itself, and the leaves of the string give the bytes back.
-/
namespace ShellLex

namespace Quoting

def protect (bytes : List UInt8) : List UInt8 :=
  bytes.flatMap fun b => if b ∈ ascii "\"\\$" then [0x5C, b] else [b]

/-- What a leaf between double quotes stands for: a backslash is not part of it. -/
def content (l : Leaf) : List UInt8 :=
  match l.kind with
  | .escaped => l.data.drop 1
  | _ => l.data

def Protected (l : Leaf) : Prop := l.kind = .term ∨ l.kind = .escaped ∧ l.data.length = 2

variable {b : UInt8} {bytes tail : List UInt8}

theorem isQuotable_iff : Scan.isQuotable b ↔ b ∉ ascii "\"\\$" := by
  constructor
  · rintro hq hm
    have special : (ascii "\"\\$").all fun c => !Scan.isQuotable c := by decide
    have hb := List.all_eq_true.mp special b hm
    simp [hq] at hb
  · intro hm
    have ne (r : Role) (c : UInt8) (hc : c ∈ ascii "\"\\$") (hr : role b = r → b = c) :
        role b ≠ r := by
      rintro h
      exact hm (hr h ▸ hc)
    have hquote := ne .quote 0x22 (by decide) Scan.eq_of_role.1
    have hbackslash := ne .backslash 0x5C (by decide) Scan.eq_of_role.2.2.2.1
    have hdollar := ne .dollar 0x24 (by decide) Scan.eq_of_role.2.2.2.2
    unfold Scan.isQuotable
    split <;> simp_all

@[simp] theorem protect_nil : protect [] = [] := rfl

theorem protect_special (h : b ∈ ascii "\"\\$") :
    protect (b :: bytes) = 0x5C :: b :: protect bytes := by
  rw [protect, List.flatMap_cons, if_pos h]
  rfl

theorem protect_quotable (h : Scan.isQuotable b) :
    protect (b :: bytes) = b :: protect bytes := by
  rw [protect, List.flatMap_cons, if_neg (isQuotable_iff.mp h)]
  rfl

/-- A run of bytes that stand for themselves stays as it is. -/
theorem protect_run (bytes : List UInt8) :
    protect bytes =
      bytes.takeWhile Scan.isQuotable ++ protect (bytes.dropWhile Scan.isQuotable) := by
  induction bytes with
  | nil => rfl
  | cons b bytes ih =>
    by_cases h : Scan.isQuotable b
    · rw [List.takeWhile_cons_of_pos h, List.dropWhile_cons_of_pos h, protect_quotable h,
        List.cons_append, ← ih]
    · rw [List.takeWhile_cons_of_neg h, List.dropWhile_cons_of_neg h, List.nil_append]

/-- No run goes on into what is protected, nor past the quote at the end. -/
theorem takeWhile_protect (bytes tail : List UInt8) :
    (protect bytes ++ 0x22 :: tail).takeWhile Scan.isQuotable =
      bytes.takeWhile Scan.isQuotable := by
  induction bytes with
  | nil => rfl
  | cons b bytes ih =>
    by_cases h : Scan.isQuotable b
    · rw [protect_quotable h, List.cons_append, List.takeWhile_cons_of_pos h,
        List.takeWhile_cons_of_pos h, ih]
    · rw [protect_special (by simpa [isQuotable_iff] using h), List.takeWhile_cons_of_neg h]
      rfl

/-- Nothing protected begins with the quote at the end. -/
theorem protect_starts (hne : bytes ≠ []) :
    ∃ c rest, protect bytes = c :: rest ∧ role c ≠ .quote := by
  obtain ⟨b, bytes, rfl⟩ := List.exists_cons_of_ne_nil hne
  by_cases h : Scan.isQuotable b
  · refine ⟨b, _, protect_quotable h, fun hq => ?_⟩
    rw [Scan.isQuotable, hq] at h
    exact absurd h Bool.false_ne_true
  · exact ⟨_, _, protect_special (by simpa [isQuotable_iff] using h), by decide⟩

end Quoting

theorem Node.not_retried_leaves (leaves : List Leaf) :
    AllIn (¬ Retried ·) (leaves.map Node.leaf) := by
  induction leaves with
  | nil => trivial
  | cons l leaves ih => exact ⟨id, ih⟩

open Quoting

section Body

variable {source tail bytes : List UInt8} {levels start pos : Nat} {state : State}
  {nodes : List Node}

/-- One leaf more: an escape for a special byte, or all the bytes up to the next one. -/
theorem Reads.protected_leaf (hne : bytes ≠ [])
    (hd : source.drop pos = protect bytes ++ 0x22 :: tail) :
    ∃ leaf rest, Protected leaf ∧ bytes = content leaf ++ rest ∧ rest.length < bytes.length ∧
      protect bytes = leaf.data ++ protect rest ∧
      Reads source False levels (.element .quotes state state) pos [.leaf leaf]
        (pos + leaf.data.length) := by
  obtain ⟨b, bytes, rfl⟩ := List.exists_cons_of_ne_nil hne
  by_cases h : Scan.isQuotable b
  · let run := (b :: bytes).takeWhile Scan.isQuotable
    have hrun : (source.drop pos).takeWhile Scan.isQuotable = run := by
      rw [hd, takeWhile_protect]
    have hlex : Lexes (.element .quotes state state) (source.drop pos) .term run.length := by
      rw [← hrun, hd, protect_quotable h, List.cons_append]
      exact .quoted h
    have hdata : (source.drop pos).take run.length = run := by
      rw [← hrun, Lexeme.take_run]
    have hsplit := List.takeWhile_append_dropWhile (p := Scan.isQuotable) (l := b :: bytes)
    refine ⟨⟨.term, run, pos⟩, (b :: bytes).dropWhile Scan.isQuotable, Or.inl rfl, hsplit.symm, ?_,
      protect_run _, ?_⟩
    · rw [List.dropWhile_cons_of_pos h]
      exact Nat.lt_succ_of_le (List.dropWhile_suffix _).length_le
    · have read : Reads source False levels _ pos _ _ := .lexeme hlex
      rw [hdata] at read
      exact read
  · have hspecial : b ∈ ascii "\"\\$" := by simpa [isQuotable_iff] using h
    rw [protect_special hspecial] at hd
    have hlex : Lexes (.element .quotes state state) (source.drop pos) .escaped 2 := by
      rw [hd]
      exact .escape rfl rfl
    refine ⟨⟨.escaped, [0x5C, b], pos⟩, bytes, Or.inr ⟨rfl, rfl⟩, rfl, Nat.lt_succ_self _,
      protect_special hspecial, ?_⟩
    have read : Reads source False levels _ pos _ _ := .lexeme hlex
    rw [hd] at read
    exact read

/-- The body of the string, by induction on how much of it is left. -/
theorem Reads.protected_body (hd : source.drop pos = protect bytes ++ 0x22 :: tail)
    (h : Reads source False levels (.body .doubleQuote state state) start nodes pos) :
    ∃ leaves : List Leaf, (∀ l ∈ leaves, Protected l) ∧ leaves.flatMap content = bytes ∧
      Reads source False levels (.body .doubleQuote state state) start
        (nodes ++ leaves.map Node.leaf) (pos + (protect bytes).length) := by
  induction hn : bytes.length using Nat.strongRecOn generalizing bytes pos nodes with
  | ind n ih =>
    subst hn
    by_cases hne : bytes = []
    · subst hne
      exact ⟨[], by simp, rfl, by simpa using h⟩
    obtain ⟨leaf, rest, hleaf, hbytes, hless, hprotect, read⟩ :=
      protected_leaf hne hd
    have more : Delimiter.doubleQuote.goesOn (.bare source pos state) := by
      obtain ⟨c, text, hc, hr⟩ := protect_starts hne
      rw [hc] at hd
      simp [Delimiter.goesOn, Scanner.role?, Scanner.bare, hd, hr]
    have left : source.drop (pos + leaf.data.length) = protect rest ++ 0x22 :: tail := by
      rw [← List.drop_drop, hd, hprotect, List.append_assoc, List.drop_left]
    obtain ⟨leaves, hleaves, hcontent, body⟩ := ih _ hless left (.bodySnoc h more read) rfl
    refine ⟨leaf :: leaves, List.forall_mem_cons.mpr ⟨hleaf, hleaves⟩, ?_, ?_⟩
    · rw [List.flatMap_cons, hcontent, hbytes]
    · rw [hprotect, List.length_append, ← Nat.add_assoc, List.map_cons]
      simpa using body

end Body

/-- Any bytes, protected and put in double quotes, are one string whose leaves give them back. -/
theorem tokenize_protect (bytes : List UInt8) :
    ∃ leaves : List Leaf,
      tokenize (ascii "\"" ++ protect bytes ++ ascii "\"") =
        .ok [.word [.enclosed .quotes ⟨.quote, ascii "\"", 0⟩ (leaves.map .leaf)
          ⟨.quote, ascii "\"", 1 + (protect bytes).length⟩]] ∧
      (∀ l ∈ leaves, Protected l) ∧ leaves.flatMap content = bytes := by
  let source := ascii "\"" ++ protect bytes ++ ascii "\""
  have hlength : source.length = 1 + (protect bytes).length + 1 := by
    simp only [source, List.length_append]
    rfl
  have inside : source.drop 1 = protect bytes ++ 0x22 :: [] := by
    simp only [source, List.append_assoc]
    rfl
  have outside : source.drop (1 + (protect bytes).length) = ascii "\"" := by
    rw [← List.drop_drop, inside, List.drop_left]
    rfl
  have empty : Reads source False (nestingLimit - 1) (.body .doubleQuote .normal .normal) 1 [] 1 :=
    .emptyBody
  obtain ⟨leaves, hleaves, hcontent, body⟩ := empty.protected_body inside
  refine ⟨leaves, ?_, hleaves, hcontent⟩
  have ended : Delimiter.doubleQuote.goesOn
      (.bare source (1 + (protect bytes).length) .normal) = false := by
    simp [Delimiter.goesOn, Scanner.role?, Scanner.bare, outside]
    rfl
  have opens : Delimiter.doubleQuote.opening <+: source.drop 0 :=
    ⟨protect bytes ++ ascii "\"", (List.append_assoc ..).symm⟩
  have closes : Delimiter.doubleQuote.closing <+: source.drop (1 + (protect bytes).length) := by
    rw [outside]
    exact List.prefix_refl _
  have apart : Delimiter.doubleQuote = .commandSubstitution → State.normal = .normal := fun _ => rfl
  have string := Reads.construct opens apart body ended closes
  have opened : (source.drop 0).take Delimiter.doubleQuote.opening.length = ascii "\"" :=
    (List.prefix_iff_eq_take.mp opens).symm
  have closed : (source.drop (1 + (protect bytes).length)).take
      Delimiter.doubleQuote.closing.length = ascii "\"" :=
    (List.prefix_iff_eq_take.mp closes).symm
  rw [opened, closed, List.nil_append] at string
  have script := Reads.script_of_part (by simp) (hlength ▸ Reads.quotes string)
  exact tokenize_of_reads script ⟨⟨id, ⟨id, Node.not_retried_leaves leaves⟩, trivial⟩, trivial⟩

end ShellLex
