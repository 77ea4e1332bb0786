import ShellLex.CaseFile.Tally
import ShellLex.Proofs.Calls
/-!
What a tally says of its cases. Each case is counted once and under its verdict, the failures are
the cases that do not pass in the order that they were judged in, and no case goes unjudged: what
lexing answers always reproduces the input.
-/
namespace ShellLex

namespace Tally

section Record

variable (tally : Tally) (name : String) (line : Nat) (verdict : Verdict)

theorem passed_record :
    (tally.record name line verdict).passed = tally.passed + if verdict.isPass then 1 else 0 := by
  cases verdict <;> rfl

theorem failed_record :
    (tally.record name line verdict).failed = tally.failed + if verdict.isFail then 1 else 0 := by
  cases verdict <;> rfl

theorem total_record : (tally.record name line verdict).total = tally.total + 1 := by
  cases verdict <;> simp only [record, total] <;> omega

theorem failures_record : (tally.record name line verdict).failures =
    tally.failures ++ if verdict.isPass then [] else [⟨name, line, verdict⟩] := by
  cases verdict <;> simp [record, Verdict.isPass]

end Record

structure Counts (judge : Case → Verdict) (tally : Tally) (cases : List Case) : Prop where
  passed : tally.passed = cases.countP fun case => (judge case).isPass
  failed : tally.failed = cases.countP fun case => (judge case).isFail
  total : tally.total = cases.length
  failures : tally.failures = (cases.filter fun case => !(judge case).isPass).map fun case =>
    ⟨case.name, case.line, judge case⟩

variable {judge : Case → Verdict} {tally : Tally} {cases : List Case}

/-- A record counts one more case. -/
theorem Counts.record (h : tally.Counts judge cases) (case : Case) :
    (tally.record case.name case.line (judge case)).Counts judge (cases ++ [case]) where
  passed := by rw [passed_record, h.passed, List.countP_append, List.countP_singleton]
  failed := by rw [failed_record, h.failed, List.countP_append, List.countP_singleton]
  total := by rw [total_record, h.total, List.length_append, List.length_singleton]
  failures := by
    rw [failures_record, h.failures, List.filter_append, List.map_append]
    cases hp : (judge case).isPass <;> simp [hp]

theorem Counts.records (h : tally.Counts judge cases) (further : List Case) :
    (further.foldl (fun tally case => tally.record case.name case.line (judge case)) tally).Counts
      judge (cases ++ further) := by
  induction further generalizing tally cases with
  | nil => simpa using h
  | cons case further ih => simpa using ih (h.record case)

theorem ofCases_counts (cases : List Case) : (ofCases cases).Counts Case.verdict cases := by
  have start : empty.Counts Case.verdict [] := ⟨rfl, rfl, rfl, rfl⟩
  exact start.records cases

end Tally

namespace Case

def Holds (case : Case) : Prop :=
  (∃ nodes, tokenize (Utf8.encode case.input.toList) = .ok nodes ∧
    case.expectation = .nodes (sexprs nodes)) ∨
  ∃ e, tokenize (Utf8.encode case.input.toList) = .error e ∧ case.expectation = .error e.message

/-- A case that holds passes, and any other fails. -/
theorem verdict_cases (case : Case) :
    case.verdict = .pass ∧ case.Holds ∨
      (∃ expected actual, case.verdict = .fail expected actual) ∧ ¬ case.Holds := by
  obtain ⟨_, _, input, expectation⟩ := case
  simp only [verdict, Holds]
  cases h : tokenize (Utf8.encode input.toList) with
  | ok nodes =>
    cases expectation with
    | nodes expected =>
      by_cases heq : sexprs nodes = expected
      · simp [textAll_of_tokenize h, heq]
      · simp [textAll_of_tokenize h, heq, Ne.symm heq]
    | error expected => simp
  | error e =>
    cases expectation with
    | nodes expected => simp
    | error expected =>
      by_cases heq : e.message = expected
      · simp [heq]
      · simp [heq, Ne.symm heq]

theorem verdict_eq_pass_iff (case : Case) : case.verdict = .pass ↔ case.Holds := by
  rcases case.verdict_cases with ⟨hv, hc⟩ | ⟨⟨_, _, hv⟩, hc⟩ <;> simp [hv, hc]

end Case

/-- A case that does not pass fails, and is no error. -/
theorem Case.isFail_verdict (case : Case) : case.verdict.isFail = !case.verdict.isPass := by
  rcases case.verdict_cases with ⟨hv, _⟩ | ⟨⟨_, _, hv⟩, _⟩ <;> rw [hv] <;> rfl

theorem Verdict.isPass_eq_decide (verdict : Verdict) :
    verdict.isPass = decide (verdict = .pass) := by
  cases verdict <;> simp [isPass]

namespace Tally

variable {tally : Tally} {cases : List Case}

theorem Counts.passed_add_failed (h : tally.Counts Case.verdict cases) :
    tally.passed + tally.failed = cases.length := by
  have failed := h.failed
  simp only [Case.isFail_verdict] at failed
  rw [h.passed, failed, List.length_eq_countP_add_countP fun case => case.verdict.isPass]
  simp

theorem Counts.errors_eq_zero (h : tally.Counts Case.verdict cases) : tally.errors = 0 := by
  have total := h.total
  rw [← h.passed_add_failed] at total
  unfold Tally.total at total
  omega

theorem Counts.allPassed_iff (h : tally.Counts Case.verdict cases) :
    tally.allPassed ↔ ∀ case ∈ cases, case.verdict = .pass := by
  have failed := h.failed
  simp only [Case.isFail_verdict] at failed
  simp only [Tally.allPassed, h.errors_eq_zero, failed, beq_self_eq_true, Bool.and_true,
    beq_iff_eq, List.countP_eq_zero, Verdict.isPass_eq_decide, Bool.not_eq_true',
    decide_eq_false_iff_not, Decidable.not_not]

/-- Whatever the cases are, each passes or fails, and passes exactly if it holds. The tally counts
all of them and no error, and lists those that do not pass in order. -/
theorem ofCases_exact (cases : List Case) :
    let tally := ofCases cases
    (∀ case : Case, case.verdict.isPass ∨ case.verdict.isFail) ∧
    (∀ case : Case, case.verdict = .pass ↔ case.Holds) ∧
    tally.errors = 0 ∧ tally.passed + tally.failed = tally.total ∧ tally.total = cases.length ∧
    tally.failures.map (fun failure => (failure.name, failure.line)) =
      (cases.filter fun case => case.verdict ≠ .pass).map (fun case => (case.name, case.line)) ∧
    (tally.allPassed ↔ ∀ case ∈ cases, case.verdict = .pass) := by
  have counts := ofCases_counts cases
  refine ⟨fun case => ?_, Case.verdict_eq_pass_iff, counts.errors_eq_zero,
    counts.passed_add_failed.trans counts.total.symm, counts.total, ?_, counts.allPassed_iff⟩
  · cases hp : case.verdict.isPass <;> simp [Case.isFail_verdict, hp]
  · simp only [counts.failures, List.map_map, Verdict.isPass_eq_decide, ← decide_not]
    rfl

end Tally

end ShellLex
