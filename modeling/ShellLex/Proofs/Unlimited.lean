import ShellLex.Proofs.Calls
import ShellLex.Proofs.Recall
/-!
The lexer with neither table nor limit. Running out of levels is all that the limit does to a
scan, and recalling outcomes does nothing to it, so the lexer answers as that one does.
-/
namespace ShellLex

variable {source : List UInt8} {recalls : Prop} {related : State → State → Prop}
  {form : Enclosure}

theorem Scanner.Fits.sound {t : Scanner} (h : t.Fits source False) : t.Sound source False :=
  ⟨h, fun table ht => (h.outcomes table ht).1.elim⟩

theorem Scanner.Fits.forget {s : Scanner} (h : s.Fits source recalls) :
    Fits source False { s with outcomes := none } :=
  ⟨h.rest, h.within, by simp⟩

theorem Beside.flip {s t : Scanner} (h : Beside source False related s t) :
    Beside source False (fun a b => related b a) t s :=
  ⟨h.afresh.sound, h.sound.fits, h.pos.symm, h.state⟩

theorem Beside.ready {s t : Scanner} (h : Beside source recalls related s t) (hr : form.Ready s) :
    form.Ready t := by
  cases form with
  | quotes | arithmetic =>
    obtain ⟨r, hr, hne⟩ := hr
    exact ⟨r, by rw [h.role?, hr], hne⟩
  | substitution =>
    change t.rest ≠ []
    rw [h.rest]
    exact hr

inductive Same {α : Type} : (left right : EStateM.Result LexError Scanner α) → Prop where
  | ok {a s t} (hp : s.pos = t.pos) (hs : s.state = t.state) : Same (.ok a s) (.ok a t)
  | error {e s t} (hp : s.pos = t.pos) (hs : s.state = t.state) : Same (.error e s) (.error e t)

namespace Follows

variable {α : Type} {left right right' : EStateM.Result LexError Scanner α}

/-- With tables on neither side and levels enough on the left, either side follows the other. -/
theorem flip (h : Follows source False related left right)
    (hd : ∀ e s, left = .error e s → e.isTooDeep = false) :
    Follows source False (fun a b => related b a) right left := by
  cases h with
  | ok h => exact .ok h.flip
  | error h => exact .error h.flip
  | tooDeep hc _ =>
    rw [hd _ _ rfl] at hc
    nomatch hc

theorem congr_right (h : Follows source recalls related left right)
    (k : Follows source False Eq right' right)
    (hd : ∀ e s, right' = .error e s → e.isTooDeep = false) :
    Follows source recalls related left right' := by
  have beside {s t t' : Scanner} (h : Beside source recalls related s t)
      (k : Beside source False Eq t' t) : Beside source recalls related s t' := by
    refine ⟨h.sound, k.sound.fits, k.pos.symm.trans h.pos, ?_⟩
    rw [k.state]
    exact h.state
  cases h with
  | ok h =>
    cases k with
    | ok k => exact .ok (beside h k)
    | tooDeep hc _ =>
      rw [hd _ _ rfl] at hc
      nomatch hc
  | error h =>
    cases k with
    | error k => exact .error (beside h k)
    | tooDeep hc _ =>
      rw [hd _ _ rfl] at hc
      nomatch hc
  | tooDeep hc h => exact .tooDeep hc h

theorem sound_ok {a : α} {s : Scanner} (h : Follows source recalls related (.ok a s) right) :
    s.Sound source recalls := by
  cases h with
  | ok h => exact h.sound

theorem sound_error {e : LexError} {s : Scanner}
    (h : Follows source recalls related (.error e s) right) : s.Sound source recalls := by
  cases h with
  | error h => exact h.sound
  | tooDeep _ h => exact h

end Follows

namespace Scan

variable {s t : Scanner}

theorem enough_levels {levels : Nat} (hs : s.Fits source recalls) (hr : form.Ready s)
    (hl : s.rest.length ≤ levels) (e : LexError) (t : Scanner)
    (hrun : part (deeper levels) form s = .error e t) : e.isTooDeep = false := by
  have h := (part_deeper_ends levels hs hr).of_error hrun
  by_cases hd : e.isTooDeep
  · have := h.levels hd
    omega
  · simpa using hd

theorem unlimited_enough (hs : s.Fits source recalls) (hr : form.Ready s) (e : LexError)
    (t : Scanner) (hrun : unlimited form s = .error e t) : e.isTooDeep = false :=
  enough_levels hs hr (Nat.le_refl _) e t hrun

/-- Some levels more change nothing but that they may be enough. -/
theorem deeper_levels (source : List UInt8) (levels more : Nat) :
    (deeper levels).Follows source False (deeper (levels + more)) := by
  refine ⟨?_, False.elim⟩
  induction levels with
  | zero => trivial
  | succ levels ih =>
    rw [Nat.succ_add]
    intro form related s t hf h _
    exact part_alike ⟨ih, False.elim⟩ hf s t h

theorem deeper_unlimited (source : List UInt8) (levels : Nat) :
    (deeper levels).Follows source False (some unlimited) := by
  refine ⟨?_, False.elim⟩
  cases levels with
  | zero => trivial
  | succ levels =>
    intro form related s t hf h hr
    rcases Nat.le_total levels t.rest.length with hl | hl
    · obtain ⟨more, hm⟩ := Nat.exists_eq_add_of_le hl
      unfold unlimited
      rw [hm]
      exact part_alike (deeper_levels source levels more) hf s t h
    · obtain ⟨more, rfl⟩ := Nat.exists_eq_add_of_le hl
      -- the right side has fewer levels, but enough of them, so it is the one that follows
      have hf' : form = .substitution → (fun a b => related b a) = Eq := by
        intro hform
        obtain rfl := hf hform
        funext a b
        exact propext eq_comm
      have back := part_alike (deeper_levels source t.rest.length more) hf' t s h.flip
      exact back.flip (unlimited_enough h.afresh (h.ready hr))

theorem unlimited_alike (source : List UInt8) :
    Inner.Alike source False (some unlimited) (some unlimited) := by
  intro form related s t hf h _
  unfold unlimited
  rw [h.rest]
  exact part_alike (deeper_levels source s.rest.length 0) hf s t h

/-- Without a limit, elements are read with no limit inside. -/
theorem unlimited_unfold (hf : form = .substitution → related = Eq)
    (h : Beside source False related s t) :
    Follows source False related (unlimited form s) (part (some unlimited) form t) :=
  part_alike (deeper_unlimited source s.rest.length) hf s t h

theorem beside_self (h : t.Fits source False) : Beside source False Eq t t :=
  ⟨h.sound, h, rfl, rfl⟩

theorem unlimited_same (hs : s.Fits source False) (hr : form.Ready s) :
    Same (unlimited form s) (part (some unlimited) form s) := by
  have fold : Follows source False Eq (unlimited form s) (part (some unlimited) form s) :=
    unlimited_unfold (fun _ => rfl) (beside_self hs)
  have enough := unlimited_enough hs hr
  generalize unlimited form s = l at fold enough ⊢
  generalize part (some unlimited) form s = r at fold ⊢
  cases fold with
  | ok h => exact .ok h.pos.symm h.state
  | error h => exact .error h.pos.symm h.state
  | tooDeep hd _ =>
    rw [enough _ _ rfl] at hd
    nomatch hd

theorem unfold_enough {e : LexError} (hs : s.Fits source False) (hr : form.Ready s)
    (hrun : part (some unlimited) form s = .error e t) : e.isTooDeep = false := by
  have same := unlimited_same hs hr
  have enough := unlimited_enough hs hr
  rw [hrun] at same
  generalize unlimited form s = l at same enough
  cases same with
  | error => exact enough _ _ rfl

theorem deeper_follows (source : List UInt8) (recalls : Prop) (levels : Nat) :
    (deeper levels).Follows source recalls (some unlimited) := by
  refine ⟨?_, fun _ => ⟨rfl, levels, deeper_obeys source recalls levels⟩⟩
  induction levels with
  | zero => trivial
  | succ levels ih =>
    intro form related s t hf h hr
    have step : Follows source recalls related (part (deeper levels) form s)
        (part (some unlimited) form t) :=
      part_alike ⟨ih, fun _ => ⟨rfl, levels, deeper_obeys source recalls levels⟩⟩ hf s t h
    have fold : Follows source False Eq (unlimited form t) (part (some unlimited) form t) :=
      unlimited_unfold (fun _ => rfl) (beside_self h.afresh)
    exact step.congr_right fold (unlimited_enough h.afresh (h.ready hr))

theorem element_follows (h : s.Sound source recalls) :
    Follows source recalls Eq (element s)
      (scriptPart (some unlimited) { s with outcomes := none }) := by
  have hi := deeper_follows source recalls nestingLimit
  exact scriptPart_alike hi _ _ ⟨h, h.fits.forget, rfl, rfl⟩

end Scan

namespace Lexer

variable {lexer : Lexer}

/-- The call of `get` that reads every `$((` afresh and may open any number of constructs. -/
def getAfresh (lexer : Lexer) : Answer × Lexer :=
  if lexer.scanner.rest.isEmpty then (.ok none, lexer)
  else
    match Scan.scriptPart (some Scan.unlimited) { lexer.scanner with outcomes := none } with
    | .ok node s => (.ok (some node), { lexer with scanner := s })
    | .error e s => (.error e, { lexer with scanner := s })

/-- The first of two calls fails for its levels, or they answer the same and go to one place. -/
def Agrees (call call' : Answer × Lexer) : Prop :=
  (∃ e, call.1 = .error e ∧ e.isTooDeep) ∨
    call.1 = call'.1 ∧ call.2.pos = call'.2.pos ∧ call.2.state = call'.2.state

theorem get_agrees (h : lexer.scanner.Sound source recalls) :
    Agrees lexer.get lexer.getAfresh := by
  unfold get getAfresh
  split
  · exact Or.inr ⟨rfl, rfl, rfl⟩
  · have hrun := Scan.element_follows h
    generalize Scan.element lexer.scanner = l at hrun ⊢
    generalize Scan.scriptPart (some Scan.unlimited) { lexer.scanner with outcomes := none } = r
      at hrun ⊢
    cases hrun with
    | ok h => exact Or.inr ⟨rfl, h.pos.symm, h.state⟩
    | error h => exact Or.inr ⟨rfl, h.pos.symm, h.state⟩
    | tooDeep hd _ => exact Or.inl ⟨_, rfl, hd⟩

theorem getAfresh_enough {e : LexError} (h : lexer.scanner.Fits source recalls)
    (he : lexer.getAfresh.1 = .error e) : e.isTooDeep = false := by
  unfold getAfresh at he
  split at he
  · nomatch he
  · rename_i hr
    have hready : Enclosure.substitution.Ready { lexer.scanner with outcomes := none } := by
      simpa [Enclosure.Ready] using hr
    split at he
    · nomatch he
    · rename_i f s hrun
      obtain rfl : f = e := by simpa using he
      exact Scan.unfold_enough h.forget hready hrun

theorem get_sound (h : lexer.scanner.Sound source recalls) :
    lexer.get.2.scanner.Sound source recalls := by
  have hrun := Scan.element_follows h
  unfold get
  split
  · exact h
  · cases hl : Scan.element lexer.scanner with
    | ok node s =>
      rw [hl] at hrun
      exact hrun.sound_ok
    | error e s =>
      rw [hl] at hrun
      exact hrun.sound_error

theorem Reachable.sound (h : Reachable source lexer) : lexer.scanner.Sound source True := by
  refine h.induct ⟨Scanner.start_fits source, ?_⟩ fun _ => get_sound
  rintro _ ⟨⟩
  simp

/-- After any calls, with errors among them or not, `get` answers as the lexer without table and
limit does and goes where it goes, unless it has no levels left. That lexer is the same at every
depth and always has levels left. What the table holds is what it would read. -/
theorem get_agrees_afresh (h : Reachable source lexer) :
    Agrees lexer.get lexer.getAfresh ∧
    (∀ e, lexer.getAfresh.1 = .error e → e.isTooDeep = false) ∧
    (∀ form t, t.Fits source False → form.Ready t →
      Same (Scan.unlimited form t) (Scan.part (some Scan.unlimited) form t)) ∧
    ∀ table, lexer.scanner.outcomes = some table → ∀ pos outcome, (pos, outcome) ∈ table →
      outcome.Afresh source pos := by
  refine ⟨get_agrees h.sound, ?_, ?_, h.sound.entries⟩
  · intro e he
    exact getAfresh_enough h.fits he
  · intro form t ht hr
    exact Scan.unlimited_same ht hr

/-- The inner expansion was read for the outer one and recalled when that was no arithmetic. -/
theorem get_agrees_afresh_recalled :
    let lexer := (start (ascii "$((a;$((1))) b")).get.2
    lexer.pos = 12 ∧ Agrees lexer.get lexer.getAfresh ∧
      Outcome.Afresh (ascii "$((a;$((1))) b") 5 ⟨.ok (.enclosed .arithmetic ⟨.quote, ascii "$((", 5⟩
        [.leaf ⟨.variable, ascii "1", 8⟩] ⟨.quote, ascii "))", 9⟩), 11⟩ := by
  have hr : Reachable (ascii "$((a;$((1))) b") (start (ascii "$((a;$((1))) b")).get.2 := .get .start
  have h := get_agrees_afresh hr
  have hl : (start (ascii "$((a;$((1))) b")).get.2.scanner.outcomes.bind (·.lookup 5) =
      some ⟨.ok (.enclosed .arithmetic ⟨.quote, ascii "$((", 5⟩
        [.leaf ⟨.variable, ascii "1", 8⟩] ⟨.quote, ascii "))", 9⟩), 11⟩ := by rfl
  obtain ⟨table, ht, hl⟩ := Option.bind_eq_some_iff.mp hl
  obtain ⟨before, after, rfl, _⟩ := List.lookup_eq_some_iff.mp hl
  exact ⟨by rfl, h.1, h.2.2.2 _ ht 5 _ (by simp)⟩

end Lexer

end ShellLex
