import Mathlib.Data.List.Basic
import ShellLex.Proofs.Answers
import ShellLex.Proofs.Tallies
/-!
Case files written from what lexing answers. Such a file is read back as it was written, whatever
stands between its cases, and all of its cases pass.
-/
namespace ShellLex

namespace Expectation

def ofSource (source : String) : Expectation :=
  match tokenize (Utf8.encode source.toList) with
  | .ok script => .nodes (sexprs script)
  | .error e => .error e.message

def outlook : Expectation → String
  | .nodes _ => "ok"
  | .error _ => "error"

def lines : Expectation → List (List Char)
  | .nodes sexprs => sexprs.map String.toList
  | .error message => [message.toList]

theorem ofSource_tidy (source : String) : ∀ line ∈ (ofSource source).lines, Text.Tidy line := by
  unfold ofSource
  cases h : tokenize (Utf8.encode source.toList) with
  | ok script =>
    simp only [lines, sexprs, List.map_map, List.forall_mem_map]
    intro node _
    simpa [Node.sexpr] using Sexpr.node_tidy node
  | error e =>
    obtain ⟨_, shows⟩ := shows_of_tokenize h
    simpa only [lines, List.forall_mem_singleton] using LexError.message_tidy shows

end Expectation

namespace CaseFile

structure Remark where
  text : List Char
  single : '\n' ∉ text
  untitled : ¬ "# test:".toList <+: Text.trim text

structure Entry where
  remarks : List Remark
  name : String
  source : String
  name_trimmed : Text.trim name.toList = name.toList
  name_single : '\n' ∉ name.toList
  source_lines : ∀ line ∈ source.toList.splitOn '\n',
    Text.trim line ≠ "---".toList ∧ line.getLast? ≠ some '\r'

namespace Entry

def title (entry : Entry) : List Char := "# test: ".toList ++ entry.name.toList

def block (entry : Entry) : List (List Char) :=
  let expected := Expectation.ofSource entry.source
  entry.title :: ("# expect: ".toList ++ expected.outlook.toList) :: "---".toList ::
    (entry.source.toList.splitOn '\n' ++ "---".toList :: (expected.lines ++ ["===".toList]))

def lines (entry : Entry) : List (List Char) := entry.remarks.map Remark.text ++ entry.block

def case (entry : Entry) (line : Nat) : Case where
  name := entry.name
  line := line + entry.remarks.length
  input := entry.source
  expectation := .ofSource entry.source

end Entry

def casesOf : (line : Nat) → List Entry → List Case
  | _, [] => []
  | line, entry :: entries => entry.case line :: casesOf (line + entry.lines.length) entries

def written (entries : List Entry) (remarks : List Remark) : List (List Char) :=
  entries.flatMap Entry.lines ++ remarks.map Remark.text

def write (entries : List Entry) (remarks : List Remark) : String :=
  String.ofList (List.intercalate ['\n'] (written entries remarks))

section Marks

variable {mark : String} {ls : List (List Char)} {line : List Char} {n k : Nat}
  {rest : List NumberedLine}

theorem unmarked_zipIdx (h : ∀ l ∈ ls, Text.trim l ≠ mark.toList) :
    ∀ l ∈ ls.zipIdx n, (!isMark mark l) = true := by
  intro l hl
  simpa [isMark] using h l.1 (List.fst_mem_of_mem_zipIdx hl)

theorem beyond_head (hm : Text.trim line = mark.toList) :
    beyond mark ((line, k) :: rest) = rest := by
  simp [beyond, isMark, hm]

theorem upTo_mark (h : ∀ l ∈ ls, Text.trim l ≠ mark.toList) (hm : Text.trim line = mark.toList) :
    upTo mark (ls.zipIdx n ++ (line, k) :: rest) = ls.zipIdx n := by
  rw [upTo, List.takeWhile_append_of_pos (unmarked_zipIdx h)]
  simp [isMark, hm]

theorem beyond_mark (h : ∀ l ∈ ls, Text.trim l ≠ mark.toList)
    (hm : Text.trim line = mark.toList) :
    beyond mark (ls.zipIdx n ++ (line, k) :: rest) = rest := by
  rw [beyond, List.dropWhile_append_of_pos (unmarked_zipIdx h)]
  exact beyond_head hm

/-- What is written behind a key and a blank is what is read behind the key. -/
theorem keyed?_append {key lead : String} {text : List Char}
    (hlead : lead.toList = key.toList ++ [' ']) (hk : Text.trim key.toList = key.toList)
    (hne : key.toList ≠ []) (ht : Text.trim text = text) :
    keyed? key (lead.toList ++ text, n) = some text := by
  have cut (behind : List Char) : Text.after? key.toList (key.toList ++ behind) = some behind := by
    simp [Text.after?]
  rw [hlead, List.append_assoc, List.singleton_append, keyed?]
  by_cases hn : text = []
  · subst hn
    have bare := cut []
    rw [List.append_nil] at bare
    rw [Text.trim_concat (by decide), hk, bare, Option.map_some, ht]
  · have whole : Text.trim (key.toList ++ ' ' :: text) = key.toList ++ ' ' :: text := by
      rw [Text.trim_eq_self] at hk ht ⊢
      rw [List.head?_append_of_ne_nil _ hne, List.getLast?_append_of_ne_nil _ (by simp),
        List.getLast?_cons_of_ne_nil hn]
      exact ⟨hk.1, ht.2⟩
    rw [whole, cut, Option.map_some, Text.trim_cons (by decide), ht]

end Marks

section Parsing

variable {n : Nat} {rest : List NumberedLine}

theorem Remark.keyed?_eq_none (remark : Remark) : keyed? "# test:" (remark.text, n) = none := by
  have differs : "# test:".toList.isPrefixOf (Text.trim remark.text) = false := by
    rw [Bool.eq_false_iff, ne_eq, List.isPrefixOf_iff_prefix]
    exact remark.untitled
  rw [keyed?, Text.after?, differs]
  rfl

theorem cases_remarks (remarks : List Remark) :
    cases ((remarks.map Remark.text).zipIdx n ++ rest) = cases rest := by
  induction remarks generalizing n with
  | nil => rfl
  | cons remark remarks ih =>
    rw [List.map_cons, List.zipIdx_cons, List.cons_append, cases, remark.keyed?_eq_none]
    exact ih

theorem Entry.keyed?_title (entry : Entry) :
    keyed? "# test:" (entry.title, n) = some entry.name.toList :=
  keyed?_append (by decide) (by decide) (by decide) entry.name_trimmed

theorem outlook_written (expected : Expectation) :
    outlook (("# expect: ".toList ++ expected.outlook.toList, n) :: rest) =
      (expected.outlook.toList == "ok".toList, rest) := by
  have trimmed : Text.trim expected.outlook.toList = expected.outlook.toList := by
    cases expected with
    | nodes _ => exact (by decide : Text.trim "ok".toList = "ok".toList)
    | error _ => exact (by decide : Text.trim "error".toList = "error".toList)
  have answer : keyed? "# expect:" ("# expect: ".toList ++ expected.outlook.toList, n) =
      some expected.outlook.toList := keyed?_append (by decide) (by decide) (by decide) trimmed
  simp only [outlook, answer]

theorem answers_of_tidy {ls : List (List Char)} (h : ∀ l ∈ ls, Text.Tidy l) :
    answers (ls.zipIdx n) = ls := by
  have trimmed : (ls.zipIdx n).map (Text.trim ·.1) = ls := calc
    (ls.zipIdx n).map (Text.trim ·.1) = ((ls.zipIdx n).map Prod.fst).map Text.trim := by
      rw [List.map_map]
      rfl
    _ = ls.map id := by
      rw [List.zipIdx_map_fst]
      exact List.map_congr_left fun l hl => (h l hl).trimmed
    _ = ls := List.map_id ls
  rw [answers, trimmed, List.filter_eq_self]
  intro l hl
  simpa using (h l hl).nonempty

theorem expectation_written {expected : Expectation} (h : ∀ l ∈ expected.lines, Text.Tidy l) :
    expectation (expected.outlook.toList == "ok".toList) (answers (expected.lines.zipIdx n)) =
      expected := by
  rw [answers_of_tidy h]
  cases expected with
  | nodes sexprs => simp [expectation, Expectation.outlook, Expectation.lines]
  | error message => simp [expectation, Expectation.outlook, Expectation.lines]

theorem cases_block (entry : Entry) :
    cases (entry.block.zipIdx n ++ rest) =
      { name := entry.name, line := n, input := entry.source
        expectation := .ofSource entry.source } :: cases rest := by
  have source (l) (hl : l ∈ entry.source.toList.splitOn '\n') : Text.trim l ≠ "---".toList :=
    (entry.source_lines l hl).1
  have tidy := Expectation.ofSource_tidy entry.source
  have expected (l) (hl : l ∈ (Expectation.ofSource entry.source).lines) :
      Text.trim l ≠ "===".toList := by
    rw [(tidy l hl).trimmed]
    exact (tidy l hl).unmarked
  have dashes : Text.trim "---".toList = "---".toList := by decide
  have finish : Text.trim "===".toList = "===".toList := by decide
  simp only [Entry.block, List.zipIdx_cons, List.zipIdx_append, List.cons_append,
    List.append_assoc, List.zipIdx_nil, List.nil_append]
  rw [cases, entry.keyed?_title]
  simp only [outlook_written, beyond_head dashes, upTo_mark source dashes,
    beyond_mark source dashes, upTo_mark expected finish, beyond_mark expected finish,
    expectation_written tidy, List.zipIdx_map_fst, List.intercalate_splitOn, String.ofList_toList]

theorem cases_entries (entries : List Entry) :
    cases ((entries.flatMap Entry.lines).zipIdx n ++ rest) = casesOf n entries ++ cases rest := by
  induction entries generalizing n with
  | nil => rfl
  | cons entry entries ih =>
    rw [List.flatMap_cons, List.zipIdx_append, List.append_assoc, Entry.lines, List.zipIdx_append,
      List.append_assoc, cases_remarks, cases_block, List.length_map, ih]
    rfl

theorem cases_written (entries : List Entry) (remarks : List Remark) :
    cases ((written entries remarks).zipIdx n) = casesOf n entries := by
  have none : cases [] = [] := by rw [cases]
  have last : cases ((remarks.map Remark.text).zipIdx (n + (entries.flatMap Entry.lines).length) ++
      []) = cases [] := cases_remarks remarks
  rw [List.append_nil, none] at last
  rw [written, List.zipIdx_append, cases_entries, last, List.append_nil]

end Parsing

section Reading

/-- The remark as it is read, without a carriage return at its end. -/
def Remark.seen (remark : Remark) : Remark where
  text := Text.dropReturn remark.text
  single h := remark.single (by
    unfold Text.dropReturn at h
    split at h
    · exact List.dropLast_subset _ h
    · exact h)
  untitled := by
    rw [Text.trim_dropReturn]
    exact remark.untitled

def Entry.seen (entry : Entry) : Entry := { entry with remarks := entry.remarks.map Remark.seen }

variable (entries : List Entry) (remarks : List Remark)

theorem Entry.block_seen (entry : Entry) : entry.seen.block = entry.block := rfl

theorem Entry.length_lines_seen (entry : Entry) :
    entry.seen.lines.length = entry.lines.length := by
  rw [lines, lines, block_seen]
  simp [seen]

theorem casesOf_seen (n : Nat) : casesOf n (entries.map Entry.seen) = casesOf n entries := by
  induction entries generalizing n with
  | nil => rfl
  | cons entry entries ih =>
    rw [List.map_cons, casesOf, casesOf, entry.length_lines_seen, ih]
    simp [Entry.case, Entry.seen]

theorem Entry.block_steady (entry : Entry) : ∀ line ∈ entry.block, Text.Steady line := by
  have title : Text.Steady entry.title :=
    .append ⟨by decide, by decide⟩ (.of_trimmed entry.name_single entry.name_trimmed)
  have outlook : Text.Steady
      ("# expect: ".toList ++ (Expectation.ofSource entry.source).outlook.toList) := by
    cases Expectation.ofSource entry.source with
    | nodes _ => exact ⟨by simp [Expectation.outlook], by simp [Expectation.outlook]⟩
    | error _ => exact ⟨by simp [Expectation.outlook], by simp [Expectation.outlook]⟩
  have dashes : Text.Steady "---".toList := ⟨by decide, by decide⟩
  have source (line) (hl : line ∈ entry.source.toList.splitOn '\n') : Text.Steady line :=
    ⟨Text.notMem_of_mem_splitOn hl, (entry.source_lines line hl).2⟩
  have expected (line) (hl : line ∈ (Expectation.ofSource entry.source).lines) :
      Text.Steady line :=
    have tidy := Expectation.ofSource_tidy entry.source line hl
    .of_trimmed tidy.single tidy.trimmed
  have finish : Text.Steady "===".toList := ⟨by decide, by decide⟩
  simp only [block, List.forall_mem_cons, List.forall_mem_append]
  exact ⟨title, outlook, dashes, source, dashes, expected, finish, List.forall_mem_nil _⟩

theorem Entry.map_lines (entry : Entry) : entry.lines.map Text.dropReturn = entry.seen.lines := by
  have block : entry.block.map Text.dropReturn = entry.block.map id :=
    List.map_congr_left fun line hl => (entry.block_steady line hl).dropReturn
  rw [lines, lines, block_seen, List.map_append, block, List.map_id, List.map_map]
  simp [seen, Remark.seen]

theorem written_single : ∀ line ∈ written entries remarks, '\n' ∉ line := by
  simp only [written, Entry.lines, List.forall_mem_append, List.forall_mem_map, List.mem_flatMap]
  refine ⟨?_, fun remark _ => remark.single⟩
  rintro line ⟨entry, _, hl⟩
  rcases List.mem_append.mp hl with hl | hl
  · obtain ⟨remark, _, rfl⟩ := List.mem_map.mp hl
    exact remark.single
  · exact (entry.block_steady line hl).single

theorem written_append (remarks' : List Remark) :
    written entries (remarks ++ remarks') =
      written entries remarks ++ remarks'.map Remark.text := by
  rw [written, written, List.map_append, List.append_assoc]

theorem map_written : (written entries remarks).map Text.dropReturn =
    written (entries.map Entry.seen) (remarks.map Remark.seen) := by
  rw [written, written, List.map_append, List.map_flatMap, List.flatMap_map, List.map_map,
    List.map_map]
  congr 1
  exact List.flatMap_congr fun entry _ => entry.map_lines

theorem written_ends_with_mark (entry : Entry) :
    ∃ front, written (entries ++ [entry]) [] = front ++ ["===".toList] := by
  obtain ⟨front, hfront⟩ : ["===".toList] <:+ entry.block := by
    simp only [Entry.block, ← List.cons_append, ← List.append_assoc]
    exact List.suffix_append _ _
  refine ⟨entries.flatMap Entry.lines ++ (entry.remarks.map Remark.text ++ front), ?_⟩
  rw [written, List.flatMap_append, List.flatMap_singleton, Entry.lines, ← hfront, List.map_nil,
    List.append_nil, List.append_assoc, List.append_assoc]

/-- A file is read as a written one, but for carriage returns and an empty line at the end. -/
theorem lines_write :
    ∃ remarks', Text.lines (write entries remarks).toList =
      written (entries.map Entry.seen) remarks' := by
  have single := written_single entries remarks
  rw [write, String.toList_ofList]
  rcases List.eq_nil_or_concat' remarks with rfl | ⟨before, last, rfl⟩
  · rcases List.eq_nil_or_concat' entries with rfl | ⟨before, last, rfl⟩
    · exact ⟨[], rfl⟩
    · obtain ⟨front, hfront⟩ := written_ends_with_mark before last
      have mark : Text.lines "===".toList = ["===".toList].map Text.dropReturn := by decide
      rw [hfront, List.forall_mem_append] at single
      refine ⟨[], ?_⟩
      rw [hfront, Text.lines_intercalate single.1, mark, ← List.map_append, ← hfront, map_written,
        List.map_nil]
  · rw [written_append, List.forall_mem_append] at single
    refine ⟨before.map Remark.seen ++ if last.text.isEmpty then [] else [last], ?_⟩
    rw [written_append, written_append, ← map_written, List.map_singleton,
      Text.lines_intercalate single.1, Text.lines_last last.single]
    split <;> rfl

theorem parse_eq {content : String} {entries : List Entry} {remarks : List Remark}
    (h : Text.lines content.toList = written entries remarks) :
    parse content = casesOf 1 entries := by
  rw [parse, h, cases_written]

end Reading

/-- Cases carry the numbers of the lines that name them. -/
theorem title_of_mem {n : Nat} {entries : List Entry} {case : Case} (h : case ∈ casesOf n entries)
    (more : List (List Char)) : n ≤ case.line ∧
      (entries.flatMap Entry.lines ++ more)[case.line - n]? =
        some ("# test: " ++ case.name).toList := by
  induction entries generalizing n with
  | nil => nomatch h
  | cons entry entries ih =>
    rw [List.flatMap_cons, List.append_assoc]
    rcases List.mem_cons.mp h with rfl | h
    · have index : (entry.case n).line - n = (entry.remarks.map Remark.text).length := by
        rw [List.length_map]
        exact Nat.add_sub_cancel_left n _
      refine ⟨Nat.le_add_right _ _, ?_⟩
      rw [index, Entry.lines, List.append_assoc, List.getElem?_append_right (Nat.le_refl _),
        Nat.sub_self, String.toList_append]
      rfl
    · obtain ⟨hle, htitle⟩ := ih h
      refine ⟨by omega, ?_⟩
      rw [List.getElem?_append_right (by omega), ← htitle]
      congr 1
      omega

theorem length_casesOf (n : Nat) (entries : List Entry) :
    (casesOf n entries).length = entries.length := by
  induction entries generalizing n with
  | nil => rfl
  | cons entry entries ih => rw [casesOf, List.length_cons, ih, List.length_cons]

theorem Entry.verdict_case (entry : Entry) (n : Nat) : (entry.case n).verdict = .pass := by
  rw [Case.verdict_eq_pass_iff]
  simp only [Case.Holds, Entry.case, Expectation.ofSource]
  cases h : tokenize (Utf8.encode entry.source.toList) with
  | ok script => exact Or.inl ⟨script, rfl, rfl⟩
  | error e => exact Or.inr ⟨e, rfl, rfl⟩

theorem verdict_of_mem {n : Nat} {entries : List Entry} {case : Case}
    (h : case ∈ casesOf n entries) : case.verdict = .pass := by
  induction entries generalizing n with
  | nil => nomatch h
  | cons entry entries ih =>
    rcases List.mem_cons.mp h with rfl | h
    · exact entry.verdict_case n
    · exact ih h

/-- A file that is written from the answers of lexing is read back case by case, and passes. -/
theorem parse_write (entries : List Entry) (remarks : List Remark) :
    let content := write entries remarks
    parse content = casesOf 1 entries ∧
    (∀ case ∈ parse content,
      (Text.lines content.toList)[case.line - 1]? = some ("# test: " ++ case.name).toList) ∧
    (Tally.ofCases (parse content)).allPassed ∧
    (Tally.ofCases (parse content)).total = entries.length := by
  intro content
  obtain ⟨remarks', hlines⟩ := lines_write entries remarks
  have parsed : parse content = casesOf 1 (entries.map Entry.seen) := parse_eq hlines
  have counts := Tally.ofCases_counts (parse content)
  have passes : ∀ case ∈ parse content, case.verdict = .pass := fun case hc =>
    verdict_of_mem (parsed ▸ hc)
  refine ⟨parsed.trans (casesOf_seen entries 1), ?_, counts.allPassed_iff.mpr passes, ?_⟩
  · intro case hc
    rw [hlines]
    rw [parsed] at hc
    exact (title_of_mem hc _).2
  · rw [counts.total, parsed, length_casesOf, List.length_map]

def samples : List Entry :=
  [{ remarks := [⟨"Words.\r".toList, by decide, by decide⟩], name := "two lines",
     source := "a \n\t$b", name_trimmed := by decide, name_single := by decide,
     source_lines := by decide },
   { remarks := [], name := "", source := "$(", name_trimmed := by decide,
     name_single := by decide, source_lines := by decide }]

theorem parse_write_samples :
    let content := "Words.\r\n# test: two lines\n# expect: ok\n---\na \n\t$b\n---\n" ++
      "(word (Term \"a\"))\n(Space \" \")\n(NewLine \"\\n\")\n(Space \"\\t\")\n" ++
      "(word (Variable \"$b\"))\n===\n# test: \n# expect: error\n---\n$(\n---\n" ++
      "unterminated command substitution starting at offset 0\n==="
    write samples [] = content ∧ (parse content).map Case.line = [2, 14] ∧
      (Tally.ofCases (parse content)).total = 2 := by
  intro content
  have written : write samples [] = content := by decide +kernel
  obtain ⟨parsed, _, _, total⟩ := parse_write samples []
  rw [written] at parsed total
  exact ⟨written, congrArg (·.map Case.line) parsed, total⟩

end CaseFile

end ShellLex
