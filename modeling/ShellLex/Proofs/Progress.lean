import ShellLex.Proofs.Resumption
/-!
Where calls lead. No call goes back in the source, a call that returns a node goes on in it, and an
iteration that is over stays over whatever is called in between.
-/
namespace ShellLex

namespace Lexer

variable {source : List UInt8} {recalls : Prop} {lexer : Lexer}

theorem Reachable.call (h : Reachable source lexer) (c : Call) :
    Reachable source (lexer.call c).2 := by
  cases c with
  | get => exact h.get
  | next => exact h.next

theorem Reachable.calls (h : Reachable source lexer) (cs : List Call) :
    Reachable source (calls cs lexer).2 := by
  induction cs generalizing lexer with
  | nil => exact h
  | cons c cs ih => exact ih (h.call c)

theorem rest_eq_nil_iff (hs : lexer.scanner.Fits source recalls) :
    lexer.scanner.rest = [] ↔ lexer.pos = source.length := by
  refine ⟨hs.pos_of_nil, fun hp => ?_⟩
  rw [hs.rest, show lexer.scanner.pos = source.length from hp, List.drop_length]

/-- A call answers the end of the source at the end of it, and nowhere else. -/
theorem get_eq_none_iff (hs : lexer.scanner.Fits source recalls) :
    lexer.get.1 = .ok none ↔ lexer.pos = source.length := by
  rw [← rest_eq_nil_iff hs]
  unfold get
  split
  · rename_i hr
    simpa using hr
  · rename_i hr
    split <;> simpa using hr

structure Advances (lexer : Lexer) (answer : Answer) (after : Lexer) : Prop where
  forward : lexer.pos ≤ after.pos
  further : ∀ node, answer = .ok (some node) → lexer.pos < after.pos

theorem get_advances (hs : lexer.scanner.Fits source recalls) :
    Advances lexer lexer.get.1 lexer.get.2 := by
  rcases get_cases hs with h | ⟨node, s, h, hr⟩ | ⟨e, s, h, hf⟩
  · rw [h]
    exact ⟨Nat.le_refl _, nofun⟩
  · have hlt : lexer.scanner.pos < s.pos := hr.reads.lt_of_singleton
    rw [h]
    exact ⟨Nat.le_of_lt hlt, fun _ _ => hlt⟩
  · rw [h]
    exact ⟨hf.forward, nofun⟩

theorem call_advances (hs : lexer.scanner.Fits source recalls) (c : Call) :
    Advances lexer (lexer.call c).1 (lexer.call c).2 := by
  have hget := get_advances hs
  cases c with
  | get => exact hget
  | next =>
    change Advances lexer lexer.next.1 lexer.next.2
    rcases next_cases lexer with h | ⟨failed, h⟩
    · rw [h]
      exact ⟨Nat.le_refl _, nofun⟩
    · rw [h]
      exact ⟨hget.forward, hget.further⟩

/-- No calls go back, however many there are and whatever they answer. -/
theorem calls_forward (h : Reachable source lexer) (cs : List Call) :
    lexer.pos ≤ (calls cs lexer).2.pos := by
  induction cs generalizing lexer with
  | nil => exact Nat.le_refl _
  | cons c cs ih => exact Nat.le_trans (call_advances h.fits c).forward (ih (h.call c))

def Over (lexer : Lexer) : Prop := lexer.failed = true ∨ lexer.scanner.rest = []

theorem next_eq_none_iff : lexer.next.1 = .ok none ↔ lexer.Over := by
  unfold Over next get
  by_cases hf : lexer.failed
  · simp [hf]
  · by_cases hr : lexer.scanner.rest = []
    · simp [hf, hr]
    · cases Scan.element lexer.scanner <;> simp [hf, hr]

/-- Calls of `get` go on after an error, but they do not take the mark of it away. -/
theorem Over.call (h : lexer.Over) (c : Call) : (lexer.call c).2.Over := by
  have hget : lexer.get.2.Over := by
    unfold get
    split
    · exact h
    · rename_i hr
      have hf : lexer.failed = true := h.resolve_right (by simpa using hr)
      split <;> exact Or.inl hf
  cases c with
  | get => exact hget
  | next =>
    have hnext := next_eq_none_iff.mpr h
    change lexer.next.2.Over
    unfold next at hnext ⊢
    split
    · exact h
    · rename_i hf
      rw [if_neg hf] at hnext
      cases hg : lexer.get with
      | mk answer after =>
        rw [hg] at hnext hget
        cases answer with
        | error e => nomatch hnext
        | ok node => exact hget

theorem Over.calls (h : lexer.Over) (cs : List Call) : (calls cs lexer).2.Over := by
  induction cs generalizing lexer with
  | nil => exact h
  | cons c cs ih => exact ih (h.call c)

/-- Calls of `get` return no more nodes than there are bytes ahead, and then something else. -/
theorem get_loop (h : Reachable source lexer) :
    ∃ nodes : List Node, lexer.pos + nodes.length ≤ source.length ∧
      let run := calls (List.replicate nodes.length .get) lexer
      run.1 = nodes.map (.ok ∘ some) ∧ ∀ node, run.2.get.1 ≠ .ok (some node) := by
  -- every node takes a byte, so what is ahead grows less
  induction hn : source.length - lexer.pos using Nat.strongRecOn generalizing lexer with
  | ind ahead ih =>
    subst hn
    by_cases hnode : ∃ node, lexer.get.1 = .ok (some node)
    · obtain ⟨node, hnode⟩ := hnode
      have hlt := (get_advances h.fits).further node hnode
      have hle : lexer.get.2.pos ≤ source.length := h.get.fits.within
      obtain ⟨nodes, hl, hrun, hlast⟩ := ih _ (by omega) h.get rfl
      refine ⟨node :: nodes, by rw [List.length_cons]; omega, ?_, hlast⟩
      have first : lexer.call .get = (.ok (some node), lexer.get.2) := Prod.ext hnode rfl
      simp only [List.length_cons, List.replicate_succ, Lexer.calls, first, hrun, List.map_cons,
        Function.comp]
    · exact ⟨[], h.fits.within, rfl, fun node hget => hnode ⟨node, hget⟩⟩

/-- Whatever was called before on a source: the lexer stands in it; a call does not go back, and
goes on if it returns a node; the end is answered at the end only; calls that meet no error come to
it after at most a node for each byte ahead; and an iteration that was over once stays over. -/
theorem calls_progress (source : List UInt8) (before : List Call) :
    let lexer := (calls before (.start source)).2
    lexer.pos ≤ source.length ∧
    (lexer.get.1 = .ok none ↔ lexer.pos = source.length) ∧
    (∀ c, Advances lexer (lexer.call c).1 (lexer.call c).2) ∧
    (∀ further, lexer.pos ≤ (calls further lexer).2.pos) ∧
    (∃ nodes : List Node, lexer.pos + nodes.length ≤ source.length ∧
      let run := calls (List.replicate nodes.length .get) lexer
      run.1 = nodes.map (.ok ∘ some) ∧
      ((∃ e, run.2.get.1 = .error e) ∨ run.2.get.1 = .ok none ∧ run.2.pos = source.length)) ∧
    (lexer.next.1 = .ok none → ∀ further, (calls further lexer.next.2).2.next.1 = .ok none) := by
  intro lexer
  have reachable : Reachable source lexer := Reachable.start.calls before
  have hs := reachable.fits
  refine ⟨hs.within, get_eq_none_iff hs, call_advances hs, calls_forward reachable, ?_, ?_⟩
  · obtain ⟨nodes, hl, hrun, hlast⟩ := get_loop reachable
    refine ⟨nodes, hl, hrun, ?_⟩
    have hend := get_eq_none_iff (reachable.calls (List.replicate nodes.length .get)).fits
    generalize (calls (List.replicate nodes.length .get) lexer).2 = stopped at hlast hend ⊢
    cases hget : stopped.get.1 with
    | error e => exact Or.inl ⟨e, rfl⟩
    | ok node? =>
      cases node? with
      | some node => exact absurd hget (hlast node)
      | none => exact Or.inr ⟨rfl, hend.mp hget⟩
  · intro hnext further
    have ended : lexer.Over := next_eq_none_iff.mp hnext
    exact next_eq_none_iff.mpr ((ended.call .next).calls further)

end Lexer

end ShellLex
