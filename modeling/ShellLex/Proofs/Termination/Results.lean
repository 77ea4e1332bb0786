import ShellLex.Proofs.Termination.Tracking
/-!
What the routines come to. A call lies below its caller and a body begins later than its construct,
so the calls cannot go on for ever: every routine comes to a result, with a limit or without, and
that result is what its scan comes to where the levels last.
-/
namespace ShellLex

/-- The levels that are enough for the limit at `s`: each construct takes a byte, but for a group
that is asked for at the end of the source. -/
def Limit.Allows : Limit → (levels : Nat) → Scanner → Prop
  | .atMost most, levels, _ => levels = most
  | .unlimited, levels, s => 0 < levels ∧ s.rest.length ≤ levels

theorem Limit.exists_allows (limit : Limit) (s : Scanner) : ∃ levels, limit.Allows levels s := by
  cases limit with
  | atMost most => exact ⟨most, rfl⟩
  | unlimited => exact ⟨s.rest.length + 1, Nat.succ_pos _, Nat.le_succ _⟩

namespace Limit.Allows

variable {source : List UInt8} {limit : Limit} {levels : Nat} {s t : Scanner}

theorem later (h : limit.Allows levels s) (hs : s.Bounded source) (ht : t.Bounded source)
    (hp : s.pos ≤ t.pos) : limit.Allows levels t := by
  have hl := hs.length
  have hl' := ht.length
  cases limit with
  | atMost most => exact h
  | unlimited =>
    simp only [Allows] at *
    omega

/-- A limit and levels enough for it are used up together, or neither is; what is left is enough
further on, where there is anything to read. -/
theorem deeper (h : limit.Allows levels s) (hs : s.Bounded source) (ht : t.Bounded source) :
    (limit.deeper? = none ∧ levels = 0) ∨
      ∃ below rest, limit.deeper? = some below ∧ levels = rest + 1 ∧
        (s.pos < t.pos → t.rest ≠ [] → below.Allows rest t) := by
  cases limit with
  | atMost most =>
    obtain rfl : levels = most := h
    cases levels with
    | zero => exact Or.inl ⟨rfl, rfl⟩
    | succ rest => exact Or.inr ⟨.atMost rest, rest, rfl, rfl, fun _ _ => rfl⟩
  | unlimited =>
    obtain ⟨hpos, henough⟩ := h
    obtain ⟨rest, rfl⟩ : ∃ rest, levels = rest + 1 := Nat.exists_eq_add_of_le' hpos
    refine Or.inr ⟨.unlimited, rest, rfl, rfl, fun hp hr => ?_⟩
    have hlt := List.length_pos_iff.mpr hr
    have hl := hs.length
    have hl' := ht.length
    constructor <;> omega

end Limit.Allows

namespace Routine

structure Comes (source : List UInt8) (limit : Limit) (levels : Nat) (r : Routine) (s : Scanner) :
    Prop where
  comesTo : (r.tree s).ComesTo limit (r.scan (Scan.deeper levels) s)
  forward : r.Forward source s (r.scan (Scan.deeper levels) s)

variable {source : List UInt8} {r r' : Routine} {s t : Scanner} {limit : Limit} {levels : Nat}

theorem Below.lt (h : r'.Below t r s) (hs : s.pos ≤ source.length) (ht : t.pos ≤ source.length) :
    Prod.Lex (· < ·) (· < ·) (source.length - t.pos, r'.rank) (source.length - s.pos, r.rank) := by
  rw [Prod.lex_def]
  unfold Below at h
  dsimp only
  omega

end Routine

/-- A loop that is over makes no calls. -/
theorem Calling.elements_over {d : Delimiter} {s : Scanner} (hm : d.goesOn s = false) :
    elements d s = .ends (.ok [] s) := by
  change (if d.goesOn s = true then _ else _ : Calling (List Node)) s = _
  rw [hm]
  rfl

/-- The body of a construct that is opened at the end of the source is empty, under any limit. -/
theorem Routine.body_comes_of_nil {source : List UInt8} {t : Scanner} (ht : t.Bounded source)
    (hr : t.rest = []) (d : Delimiter) (limit : Limit) (levels : Nat) :
    (Routine.body d).Comes source limit levels t := by
  have elements {u : Scanner} (hu : u.rest = []) :
      ((Routine.elements d).tree u).ComesTo limit (.ok [] u) ∧
        (Routine.elements d).scan (Scan.deeper levels) u = .ok [] u := by
    have hm : d.goesOn u = false :=
      Bool.eq_false_iff.mpr fun hm => Scan.rest_ne_nil_of_goesOn hm hu
    have htree : (Routine.elements d).tree u = .ends (.ok [] u) := Calling.elements_over hm
    exact ⟨htree ▸ .ends, Scan.manyWithin_over hm⟩
  cases d with
  | commandSubstitution =>
    obtain ⟨hcomes, hscan⟩ := elements ((t.enter_rest .normal).trans hr)
    have hbody : (Routine.body .commandSubstitution).scan (Scan.deeper levels) t =
        .ok [] ((t.enter .normal).enter t.state) := by
      change Scan.within .normal _ t = _
      rw [Scan.within, show Scan.many _ _ (t.enter .normal) = _ from hscan]
    have gains : t.Gains source [] ((t.enter .normal).enter t.state) :=
      ⟨(ht.enter .normal).enter t.state, fun _ hn => absurd rfl hn⟩
    exact ⟨hbody ▸ .calls hcomes .ends, hbody ▸ gains⟩
  | doubleQuote | arithmetic | arithmeticGroup =>
    obtain ⟨hcomes, hscan⟩ := elements hr
    have gains : t.Gains source [] t := ⟨ht.stay, fun _ hn => absurd rfl hn⟩
    exact ⟨.calls hcomes (hscan ▸ .ends), hscan ▸ gains⟩

/-- A tree comes to what it runs to, if all calls below its caller come to what they scan. -/
theorem CallTree.Descends.comesTo {α : Type} {source : List UInt8} {r : Routine} {s : Scanner}
    {ok : α → Scanner → Prop} {bad : LexError → Scanner → Prop} {limit : Limit} {levels : Nat}
    {c : CallTree α} (h : c.Descends source r s ok bad) (hs : s.Bounded source)
    (hl : limit.Allows levels s)
    (calls : ∀ (limit : Limit) (levels : Nat) (r' : Routine) (t : Scanner), t.Bounded source →
      r'.Below t r s → limit.Allows levels t → r'.Comes source limit levels t) :
    c.ComesTo limit (c.run levels) ∧ Scan.Ends (fun _ => c.run levels) s ok bad := by
  induction c with
  | ends result =>
    refine ⟨.ends, ?_⟩
    cases result <;> exact h
  | calls r' t next ih =>
    obtain ⟨ht, hb, hnext⟩ := h
    have hp : s.pos ≤ t.pos := hb.elim Nat.le_of_lt And.left
    have comes := calls limit levels r' t ht hb (hl.later hs ht hp)
    obtain ⟨hcomes, hends⟩ := ih _ (hnext _ comes.forward)
    exact ⟨.calls comes.comesTo hcomes, hends⟩
  | enters d start t next ih =>
    obtain ⟨ht, hp, hnext⟩ := h
    rcases hl.deeper hs ht with ⟨hnone, rfl⟩ | ⟨below, rest, hsome, rfl, hrest⟩
    · -- the limit is reached, so the body is refused where it would begin
      have refusal : (Routine.body d).Forward source t
        (.error ⟨.tooDeep nestingLimit, start⟩ t) := ht.stay
      obtain ⟨hcomes, hends⟩ := ih _ (hnext _ refusal)
      exact ⟨.refused hnone hcomes, hends⟩
    · have comes : (Routine.body d).Comes source below rest t := by
        by_cases hr : t.rest = []
        · exact Routine.body_comes_of_nil ht hr d below rest
        · have hlt : s.pos < t.pos := hp.resolve_right fun ⟨_, hnil⟩ => hr hnil
          exact calls below rest (.body d) t ht (Or.inl hlt) (hrest hlt hr)
      obtain ⟨hcomes, hends⟩ := ih _ (hnext _ comes.forward)
      exact ⟨.enters hsome comes.comesTo hcomes, hends⟩

namespace Routine

/-- The induction on the bytes that are left and, among routines at one offset, on the routine. -/
theorem comes {source : List UInt8} {s : Scanner} (hs : s.Bounded source) (r : Routine)
    (limit : Limit) (levels : Nat) (hl : limit.Allows levels s) :
    r.Comes source limit levels s := by
  have calls (limit : Limit) (levels : Nat) (r' : Routine) (t : Scanner) (ht : t.Bounded source)
      (hb : r'.Below t r s) (hl : limit.Allows levels t) : r'.Comes source limit levels t :=
    comes ht r' limit levels hl
  have here (r' : Routine) (hr : r'.rank < r.rank) (t : Scanner) (ht : s.Goes source t) :
      r'.Comes source limit levels t :=
    calls limit levels r' t ht.bounded (Or.inr ⟨ht.forward, hr⟩) (hl.later hs ht.bounded ht.forward)
  have tracks : (r.tree s).run levels = r.scan (Scan.deeper levels) s := by
    refine run_tree hs r ?_ ?_
    · rintro rfl t ht
      exact forward_iff.mp (here .part (by decide) t ht).forward
    · rintro d rfl t ht
      exact forward_iff.mp (here (.element d.form) (by cases d <;> decide) t ht).forward
  obtain ⟨hcomes, hends⟩ := (descends hs r).comesTo hs hl calls
  rw [tracks] at hcomes hends
  exact ⟨hcomes, forward_iff.mpr hends⟩
termination_by (source.length - s.pos, r.rank)
decreasing_by exact hb.lt hs.within ht.within

end Routine

namespace Lexer

def answering (lexer : Lexer) : Scan.Result (Option Node) → Answer × Lexer
  | .ok answer s => (.ok answer, { lexer with scanner := s })
  | .error e s => (.error e, { lexer with scanner := s })

theorem get_scan (lexer : Lexer) :
    lexer.get =
      lexer.answering (Routine.call.scan (Scan.deeper nestingLimit) lexer.scanner) := by
  have hscan : Routine.call.scan (Scan.deeper nestingLimit) lexer.scanner =
      (if lexer.scanner.rest.isEmpty then pure none else some <$> Scan.element : Scan _)
        lexer.scanner := rfl
  rw [hscan, Lexer.get]
  split
  · rfl
  · rw [Scan.map_run]
    cases Scan.element lexer.scanner <;> rfl

/-- A call of the lexer is what the routine of that name comes to under the limit. -/
theorem get_comesTo {lexer : Lexer} (h : lexer.scanner.Bounded lexer.source) :
    ∃ result, (Routine.call.tree lexer.scanner).ComesTo (.atMost nestingLimit) result ∧
      lexer.get = lexer.answering result :=
  ⟨_, (Routine.comes h .call (.atMost nestingLimit) nestingLimit rfl).comesTo, lexer.get_scan⟩

end Lexer

/-- Wherever a scan stands in a source, in whatever state, and whatever its table holds that lies
ahead in the source, each routine comes to one result, under any limit on the depth and under none.
What a routine calls lies further on or is smaller where it stands, and the bodies that it enters
begin later than it, if there is anything left for them; so it is with what these call in turn. -/
theorem Routine.finishes {source : List UInt8} {s : Scanner} (hs : s.In source)
    (ht : ∀ table, s.outcomes = some table → ∀ pos outcome, (pos, outcome) ∈ table →
      pos < outcome.stop ∧ outcome.stop ≤ source.length) :
    s.Bounded source ∧ (∀ (r : Routine) (t : Scanner), t.Bounded source → r.Descends source t) ∧
      ∀ (r : Routine) (limit : Limit), ∃ result,
        (∀ other, (r.tree s).ComesTo limit other ↔ other = result) ∧
        r.Forward source s result ∧
        ∀ levels, limit.Allows levels s → r.scan (Scan.deeper levels) s = result := by
  have bounded : s.Bounded source := by
    refine ⟨hs, ?_⟩
    intro table htable pos outcome hm
    obtain ⟨hlt, hstop⟩ := ht table htable pos outcome hm
    exact ⟨Nat.le_of_lt hlt, hstop, fun _ _ _ => hlt⟩
  refine ⟨bounded, fun r t ht => descends ht r, ?_⟩
  intro r limit
  obtain ⟨enough, henough⟩ := limit.exists_allows s
  have comes := comes bounded r limit enough henough
  refine ⟨_, ?_, comes.forward, ?_⟩
  · intro other
    refine ⟨comes.comesTo.unique, ?_⟩
    rintro rfl
    exact comes.comesTo
  · intro levels hl
    exact comes.comesTo.unique (Routine.comes bounded r limit levels hl).comesTo

/-- A scan before a `$((`, with a table that nothing was read for. -/
def Scanner.misled : Scanner where
  rest := ascii "$(( $((1)) b)"
  pos := 1
  state := .casePattern
  outcomes := some [(5, ⟨.ok (.leaf ⟨.unknown, [], 0⟩), 10⟩), (2, ⟨.error ⟨.tooDeep 0, 0⟩, 14⟩)]
  journal := []

/-- With no limit the `$((` is read as arithmetic, which fails, and read again from its offset on up
to the end that the table led it to. -/
theorem Routine.finishes_misled :
    ∃ node t, (Routine.expansion.tree .misled).ComesTo .unlimited (.ok node t) ∧ t.pos = 11 := by
  have stands : Scanner.misled.In (ascii "a$(( $((1)) b)") := ⟨by decide, by decide⟩
  have onward : ∀ table, Scanner.misled.outcomes = some table → ∀ pos outcome,
      (pos, outcome) ∈ table → pos < outcome.stop ∧ outcome.stop ≤ 14 := by
    rintro table ⟨⟩ pos outcome hm
    simp only [List.mem_cons, List.not_mem_nil, or_false, Prod.mk.injEq] at hm
    rcases hm with ⟨rfl, rfl⟩ | ⟨rfl, rfl⟩ <;> decide
  obtain ⟨_, _, finishes⟩ := Routine.finishes stands onward
  obtain ⟨result, hcomes, _, hscan⟩ := finishes .expansion .unlimited
  obtain ⟨node, t, hrun, hpos⟩ : ∃ node t,
      Routine.expansion.scan (Scan.deeper 13) .misled = .ok node t ∧ t.pos = 11 :=
    ⟨_, _, rfl, rfl⟩
  refine ⟨node, t, (hcomes _).mpr ?_, hpos⟩
  rw [← hrun]
  exact hscan 13 ⟨by decide, Nat.le_refl 13⟩

end ShellLex
