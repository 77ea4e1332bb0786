import ShellLex.Proofs.Depth
/-!
The table at the limit. The lexer that keeps no table has the same levels, but reads again what the
other one recalls, so it alone may run out of them; where it does not, both do the same.
-/
namespace ShellLex

variable {source : List UInt8} {levels : Nat}

abbrev Pairing.limited (source : List UInt8) : Pairing := .beside source True False True

namespace Scan

/-- What was recalled is read afresh on the right, or takes too many levels there. -/
theorem recalled_limited {related : State → State → Prop} {s t : Scanner} {outcome : Outcome}
    (hst : Beside source True related s t) (hp : ascii "$((" <+: s.rest)
    (ho : s.outcome? = some outcome) :
    (Pairing.limited source).Match related (Node.move id) (expansion (deeper levels) s)
      (expansion (deeper levels) t) := by
  obtain ⟨table, ht, hm⟩ := outcome?_mem ho
  obtain ⟨_, hk⟩ := hst.sound.fits.outcomes table ht
  have hstop := (hk _ _ hm).skip_pos hst.sound.fits
  have afresh := hst.sound.entries table ht _ _ hm t hst.afresh hst.pos
  have follows := expansion_follows (deeper_follows source False levels) (beside_self hst.afresh)
    (by rw [hst.rest]; exact hp)
  have beside {u v : Scanner} (h : Beside source False Eq u v) (hstate : v.state = t.state)
      (hpos : outcome.stop = v.pos) :
      Beside source True related (s.skip (outcome.stop - s.pos)) u := by
    refine ⟨hst.sound.skip _, h.sound.fits, ?_, ?_⟩
    · rw [hstop, hpos, h.pos]
    · rw [h.state, hstate]
      exact hst.state
  unfold Ends at afresh
  rw [expansion_recall ho]
  generalize expansion (deeper levels) t = r at follows ⊢
  generalize expansion (some unlimited) t = r' at follows afresh
  cases follows with
  | @ok node u v h =>
    obtain ⟨_, hstate, rfl⟩ := afresh
    have hmatch := Pairing.Match.ok (P := Pairing.limited source) (f := Node.move id)
      (a := node) (beside h hstate rfl)
    rwa [Node.move_id] at hmatch
  | error h =>
    obtain ⟨_, hstate, rfl⟩ := afresh
    exact .error (beside h hstate rfl)
  | tooDeep hd _ => exact .lacking hd trivial

theorem expansion_limited
    (hi : (Pairing.limited source).Deeper (deeper levels) (deeper levels)) :
    (Pairing.limited source).Expands (deeper levels) (deeper levels) := by
  intro related s t hst hp
  cases ho : s.outcome? with
  | some outcome => exact recalled_limited hst hp ho
  | none => exact expansion_missed hi (deeper_follows source True levels) hst hp ho

theorem element_limited (source : List UInt8) :
    (Pairing.limited source).Alike Eq (Node.move id) element element :=
  Pairing.element_alike fun _ => expansion_limited

theorem script_limited (source : List UInt8) :
    (Pairing.limited source).Alike Eq (Node.moveAll id) script script :=
  Pairing.script_alike fun _ => expansion_limited

end Scan

theorem start_limited (source : List UInt8) :
    (Pairing.limited source).Match Eq (Node.moveAll id) (Scan.script (Scanner.start source))
      (Scan.script { Scanner.start source with outcomes := none }) := by
  have hs : (Scanner.start source).Sound source True := Lexer.Reachable.start.sound
  have ht := (Scanner.start_fits source).forget
  exact Scan.script_limited source _ _ ⟨hs, ht, rfl, rfl⟩

theorem script_of_afresh {nodes : List Node} {t : Scanner}
    (h : Scan.script { Scanner.start source with outcomes := none } = .ok nodes t) :
    ∃ s, Scan.script (Scanner.start source) = .ok nodes s ∧ s.state = t.state := by
  have run := start_limited source
  rw [h] at run
  generalize Scan.script (Scanner.start source) = l at run ⊢
  generalize hr : EStateM.Result.ok nodes t = r at run
  cases run with
  | ok hst =>
    obtain ⟨rfl, rfl⟩ := EStateM.Result.ok.inj hr
    exact ⟨_, by rw [Node.moveAll_id], hst.state⟩
  | error => nomatch hr
  | spent _ h => exact h.1.elim
  | lacking => nomatch hr

/-- Keeping outcomes changes nothing: the source is read as it is without a table, at the same
limit, unless reading afresh runs out of levels. -/
theorem tokenize_limited (source : List UInt8) :
    tokenize source = tokenizeAfresh source ∨
      ∃ e, tokenizeAfresh source = .error e ∧ e.isTooDeep := by
  have run := start_limited source
  unfold tokenize tokenizeAfresh
  generalize Scan.script (Scanner.start source) = l at run ⊢
  generalize Scan.script { Scanner.start source with outcomes := none } = r at run ⊢
  cases run with
  | ok => exact Or.inl (by rw [Node.moveAll_id])
  | error => exact Or.inl rfl
  | spent _ h => exact h.1.elim
  | lacking hd _ => exact Or.inr ⟨_, rfl, hd⟩

end ShellLex
