import ShellLex.Proofs.Agreement
/-!
Recalling what was read. An expansion follows itself because what was kept for it was read afresh,
and so every routine follows itself.
-/
namespace ShellLex.Scan

variable {source : List UInt8} {recalls : Prop} {related : State → State → Prop}
  {left right : Inner}

theorem alike_many {more : Scanner → Bool} {read read' : Scan Node}
    (hm : ∀ s t, Beside source recalls related s t → more t = more s)
    (h : ∀ s t, Beside source recalls related s t → more s = true →
      Follows source recalls related (read s) (read' t)) :
    Alike source recalls related (many more read) (many more read') := by
  intro s t hst
  refine follows_of_match Node.moveAll_id (Pairing.alike_many hm ?_ s t hst)
  intro s t hst hs
  exact match_of_follows Node.move_id (h s t hst hs)

theorem attempt_alike (hi : left.Alike source recalls right) :
    Alike source recalls related (attempt left) (attempt right) := by
  intro s t hst
  exact follows_of_match Node.move_id (Pairing.attempt_alike hi.deeper s t hst)

/-- An answer may be recalled: whatever the state is, reading afresh comes to the same. -/
theorem answer_afresh {s u : Scanner} {node : Node}
    (hi : left.Alike source recalls (some unlimited)) (hs : s.Sound source recalls)
    (hrun : attempt left s = .ok node u) :
    Outcome.Afresh source s.pos ⟨.ok node, u.pos⟩ := by
  intro t ht hpos
  have hst : Beside source recalls (fun _ state => state = t.state) s t := ⟨hs, ht, hpos, rfl⟩
  have h := attempt_alike hi s t hst
  rw [hrun] at h
  unfold Ends
  rw [expansion_afresh ht.outcome?_eq_none]
  generalize attempt (some unlimited) t = r at h ⊢
  cases h with
  | ok h =>
    dsimp only
    rw [h.afresh.record_eq, h.pos]
    exact ⟨h.afresh, h.state, rfl⟩

theorem failure_afresh {s u : Scanner} {e : LexError}
    (hi : left.Alike source recalls (some unlimited)) (hs : s.Sound source recalls)
    (hrun : attempt left s = .error e u) (hd : e.isTooDeep = false) :
    Outcome.Afresh source s.pos ⟨.error e, u.pos⟩ := by
  intro t ht hpos
  have hst : Beside source recalls (fun _ state => state = t.state) s t := ⟨hs, ht, hpos, rfl⟩
  have h := attempt_alike hi s t hst
  rw [hrun] at h
  unfold Ends
  rw [expansion_afresh ht.outcome?_eq_none]
  generalize attempt (some unlimited) t = r at h ⊢
  cases h with
  | error h =>
    simp only [hd, Bool.false_eq_true, if_false]
    rw [h.afresh.record_eq, h.pos]
    exact ⟨h.afresh, h.state, rfl⟩
  | tooDeep hd' => simp [hd] at hd'

theorem answer_sound {s u : Scanner} {node : Node} (hi : left.Follows source recalls right)
    (hs : s.Sound source recalls) (hp : ascii "$((" <+: s.rest)
    (hrun : attempt left s = .ok node u) (hu : u.Sound source recalls) :
    (u.record s.pos ⟨.ok node, u.pos⟩).Sound source recalls := by
  apply hu.record
  intro hr
  obtain ⟨rfl, levels, ho⟩ := hi.kept hr
  have reading := (attempt_ends ho hs.fits hp).of_ok hrun
  exact ⟨reading.kept, answer_afresh hi.alike hs hrun⟩

theorem failure_sound {s u : Scanner} {e : LexError} (hi : left.Follows source recalls right)
    (hs : s.Sound source recalls) (hp : ascii "$((" <+: s.rest)
    (hrun : attempt left s = .error e u) (hd : e.isTooDeep = false)
    (hu : u.Sound source recalls) :
    (u.record s.pos ⟨.error e, u.pos⟩).Sound source recalls := by
  apply hu.record
  intro hr
  obtain ⟨rfl, levels, ho⟩ := hi.kept hr
  have failing := (attempt_ends ho hs.fits hp).of_error hrun
  exact ⟨failing.kept hd, failure_afresh hi.alike hs hrun hd⟩

theorem recalled_follows {s t : Scanner} {outcome : Outcome}
    (hi : left.Follows source recalls right) (hst : Beside source recalls related s t)
    (ho : s.outcome? = some outcome) :
    Follows source recalls related (expansion left s) (expansion right t) := by
  obtain ⟨table, ht, hm⟩ := outcome?_mem ho
  obtain ⟨hr, hk⟩ := hst.sound.fits.outcomes table ht
  obtain ⟨rfl, _⟩ := hi.kept hr
  have run := hst.sound.entries table ht _ _ hm t hst.afresh hst.pos
  have hstop := (hk _ _ hm).skip_pos hst.sound.fits
  have beside {u : Scanner} (hu : u.Fits source False) (hstate : u.state = t.state)
      (hpos : outcome.stop = u.pos) :
      Beside source recalls related (s.skip (outcome.stop - s.pos)) u := by
    refine ⟨hst.sound.skip _, hu, ?_, ?_⟩
    · rw [hstop, hpos]
    · rw [hstate]
      exact hst.state
  unfold Ends at run
  rw [expansion_recall ho]
  generalize expansion (some unlimited) t = r at run ⊢
  cases r with
  | ok node u =>
    obtain ⟨hu, hstate, rfl⟩ := run
    exact .ok (beside hu hstate rfl)
  | error e u =>
    obtain ⟨hu, hstate, rfl⟩ := run
    exact .error (beside hu hstate rfl)

/-- What is not recalled is read on both sides, and what the left side keeps of it is sound. -/
theorem expansion_missed {spent lacks : Prop} {kept : Inner} {s t : Scanner}
    (hi : (Pairing.beside source recalls spent lacks).Deeper left right)
    (hk : left.Follows source recalls kept) (hst : Beside source recalls related s t)
    (hp : ascii "$((" <+: s.rest) (ho : s.outcome? = none) :
    (Pairing.beside source recalls spent lacks).Match related (Node.move id) (expansion left s)
      (expansion right t) := by
  have h := Pairing.attempt_alike hi s t hst
  rw [expansion_afresh ho, expansion_afresh hst.afresh.outcome?_eq_none]
  cases hrun : attempt left s with
  | ok node u =>
    rw [hrun] at h
    generalize attempt right t = r at h ⊢
    cases h with
    | ok h =>
      have hsound := answer_sound hk hst.sound hp hrun h.sound
      dsimp only
      rw [h.afresh.record_eq]
      exact .ok ⟨hsound, h.afresh, h.pos, h.state⟩
    | lacking hd h => exact .lacking hd h
  | error e u =>
    rw [hrun] at h
    generalize attempt right t = r at h ⊢
    cases h with
    | error h =>
      by_cases hd : e.isTooDeep
      · simp only [LexError.move_isTooDeep, hd, if_true]
        exact .error h
      · have hd' : e.isTooDeep = false := by simpa using hd
        have hsound := failure_sound hk hst.sound hp hrun hd' h.sound
        simp only [LexError.move_isTooDeep, hd', Bool.false_eq_true, if_false]
        rw [h.afresh.record_eq]
        exact .error ⟨hsound, h.afresh, h.pos, h.state⟩
    | spent hd h =>
      simp only [hd, if_true]
      exact .spent hd h
    | lacking hd h => exact .lacking hd h

theorem expansion_follows {s t : Scanner} (hi : left.Follows source recalls right)
    (hst : Beside source recalls related s t) (hp : ascii "$((" <+: s.rest) :
    Follows source recalls related (expansion left s) (expansion right t) := by
  cases ho : s.outcome? with
  | some outcome => exact recalled_follows hi hst ho
  | none => exact follows_of_match Node.move_id (expansion_missed hi.alike.deeper hi hst hp ho)

theorem expands_of_follows (hi : left.Follows source recalls right) :
    (Pairing.beside source recalls True False).Expands left right := by
  intro related s t hst hp
  exact match_of_follows Node.move_id (expansion_follows hi hst hp)

theorem part_alike {form : Enclosure} (hi : left.Follows source recalls right)
    (hf : form = .substitution → related = Eq) :
    Alike source recalls related (part left form) (part right form) := by
  intro s t hst
  have hx := expands_of_follows hi
  exact follows_of_match Node.move_id (Pairing.part_alike hi.alike.deeper hx hf s t hst)

theorem scriptPart_alike (hi : left.Follows source recalls right) :
    Alike source recalls Eq (scriptPart left) (scriptPart right) := by
  have h : Alike source recalls Eq (part left .substitution) (part right .substitution) :=
    part_alike hi fun _ => rfl
  exact h

end ShellLex.Scan
