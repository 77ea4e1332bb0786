import ShellLex.Scan.Enclosure
/-!
What one run of a scan ends in. A routine is unfolded once, against a condition on its answers and
one on its failures; whoever calls it uses the condition and not the code.
-/
namespace ShellLex

namespace Scanner

@[simp] theorem skip_rest (s : Scanner) (size : Nat) : (s.skip size).rest = s.rest.drop size := rfl
@[simp] theorem skip_state (s : Scanner) (size : Nat) : (s.skip size).state = s.state := rfl
@[simp] theorem skip_outcomes (s : Scanner) (size : Nat) :
    (s.skip size).outcomes = s.outcomes := rfl

theorem skip_pos {s : Scanner} {size : Nat} (h : size ≤ s.rest.length) :
    (s.skip size).pos = s.pos + size := by
  simp [skip, h]

@[simp] theorem enter_rest (s : Scanner) (state : State) : (s.enter state).rest = s.rest := by
  unfold enter; split <;> rfl

@[simp] theorem enter_pos (s : Scanner) (state : State) : (s.enter state).pos = s.pos := by
  unfold enter; split <;> rfl

@[simp] theorem enter_state (s : Scanner) (state : State) : (s.enter state).state = state := by
  unfold enter; split
  · assumption
  · rfl

@[simp] theorem enter_outcomes (s : Scanner) (state : State) :
    (s.enter state).outcomes = s.outcomes := by
  unfold enter; split <;> rfl

end Scanner

namespace Scan

variable {α β : Type} {s : Scanner} {scan : Scan α}

/-- The run of `scan` on `s` ends as `ok` says if it answers and as `bad` says if it fails. -/
def Ends (scan : Scan α) (s : Scanner) (ok : α → Scanner → Prop)
    (bad : LexError → Scanner → Prop) : Prop :=
  match scan s with
  | .ok a t => ok a t
  | .error e t => bad e t

theorem Ends.mono {ok ok' : α → Scanner → Prop} {bad bad' : LexError → Scanner → Prop}
    (h : Ends scan s ok bad) (hok : ∀ a t, ok a t → ok' a t) (hbad : ∀ e t, bad e t → bad' e t) :
    Ends scan s ok' bad' := by
  unfold Ends at *
  split
  · rename_i heq; rw [heq] at h; exact hok _ _ h
  · rename_i heq; rw [heq] at h; exact hbad _ _ h

theorem Ends.imp {ok ok' : α → Scanner → Prop} {bad : LexError → Scanner → Prop}
    (h : Ends scan s ok bad) (hok : ∀ a t, ok a t → ok' a t) : Ends scan s ok' bad :=
  h.mono hok fun _ _ he => he

theorem Ends.and {ok ok' : α → Scanner → Prop} {bad bad' : LexError → Scanner → Prop}
    (h : Ends scan s ok bad) (k : Ends scan s ok' bad') :
    Ends scan s (fun a t => ok a t ∧ ok' a t) fun e t => bad e t ∧ bad' e t := by
  unfold Ends at *
  split <;> simp_all

theorem ends_self : Ends scan s (fun a t => scan s = .ok a t) fun e t => scan s = .error e t := by
  unfold Ends
  split <;> assumption

theorem Ends.of_ok {ok : α → Scanner → Prop} {bad : LexError → Scanner → Prop} {a t}
    (h : Ends scan s ok bad) (heq : scan s = .ok a t) : ok a t := by
  unfold Ends at h; rwa [heq] at h

theorem Ends.of_error {ok : α → Scanner → Prop} {bad : LexError → Scanner → Prop} {e t}
    (h : Ends scan s ok bad) (heq : scan s = .error e t) : bad e t := by
  unfold Ends at h; rwa [heq] at h

section Primitives

variable {ok : α → Scanner → Prop} {bad : LexError → Scanner → Prop}

@[simp] theorem ends_pure (a : α) : Ends (pure a) s ok bad ↔ ok a s := Iff.rfl

@[simp] theorem ends_bind {next : β → Scan α} {scan : Scan β} :
    Ends (scan >>= next) s ok bad ↔ Ends scan s (fun b t => Ends (next b) t ok bad) bad := by
  change (match EStateM.bind scan next s with
    | .ok a t => ok a t
    | .error e t => bad e t) ↔ _
  unfold EStateM.bind Ends
  cases scan s <;> rfl

@[simp] theorem ends_get {ok : Scanner → Scanner → Prop} : Ends get s ok bad ↔ ok s s := Iff.rfl

@[simp] theorem ends_fail (cause : Cause) (pos : Nat) :
    Ends (fail cause pos : Scan α) s ok bad ↔ bad ⟨cause, pos⟩ s := Iff.rfl

@[simp] theorem ends_internal (reason : String) :
    Ends (internal reason : Scan α) s ok bad ↔ bad ⟨.internal reason, s.pos⟩ s := Iff.rfl

@[simp] theorem ends_enter (state : State) {ok : Unit → Scanner → Prop} :
    Ends (enter state) s ok bad ↔ ok () (s.enter state) := Iff.rfl

@[simp] theorem ends_take (size : Nat) (kind : Kind) {ok : Leaf → Scanner → Prop} :
    Ends (take size kind) s ok bad ↔ ok ⟨kind, s.rest.take size, s.pos⟩ (s.skip size) := Iff.rfl

theorem ends_takeWhile {accept : UInt8 → Bool} {kind : Kind} {ok : Leaf → Scanner → Prop}
    (h : 0 < (s.rest.takeWhile accept).length) :
    Ends (takeWhile accept kind) s ok bad ↔
      ok ⟨kind, s.rest.take (s.rest.takeWhile accept).length, s.pos⟩
        (s.skip (s.rest.takeWhile accept).length) := by
  simp only [takeWhile, ends_bind, ends_get]
  split
  · omega
  · exact ends_take _ _

theorem ends_delimiter? (text : List UInt8) {ok : Option Leaf → Scanner → Prop} :
    Ends (delimiter? text) s ok bad ↔
      if text <+: s.rest then
        ok (some ⟨.quote, s.rest.take text.length, s.pos⟩) (s.skip text.length)
      else ok none s := by
  simp only [delimiter?, ends_bind, ends_get, List.isPrefixOf_iff_prefix]
  split <;> rfl

theorem ends_opened (d : Delimiter) {ok : Leaf → Scanner → Prop} :
    Ends (opened d) s ok bad ↔
      if d = .arithmeticGroup ∨ d.opening <+: s.rest then
        ok ⟨.quote, s.rest.take d.opening.length, s.pos⟩ (s.skip d.opening.length)
      else bad ⟨.internal d.expected, s.pos⟩ s := by
  cases d with
  | arithmeticGroup => exact (if_pos (Or.inl rfl)).symm ▸ Iff.rfl
  | doubleQuote | commandSubstitution | arithmetic =>
    simp only [opened, ends_bind, ends_delimiter?, reduceCtorEq, false_or]
    split <;> rfl

theorem ends_opened_of_prefix {d : Delimiter} {ok : Leaf → Scanner → Prop}
    (h : d.opening <+: s.rest) :
    Ends (opened d) s ok bad ↔
      ok ⟨.quote, s.rest.take d.opening.length, s.pos⟩ (s.skip d.opening.length) := by
  rw [ends_opened, if_pos (Or.inr h)]

theorem ends_closed (d : Delimiter) (start : Nat) {ok : Leaf → Scanner → Prop} :
    Ends (closed d start) s ok bad ↔
      if d.closing <+: s.rest then
        ok ⟨.quote, s.rest.take d.closing.length, s.pos⟩ (s.skip d.closing.length)
      else if d = .arithmeticGroup ∧ s.rest ≠ [] then bad ⟨.internal d.expected, s.pos⟩ s
      else bad ⟨.unterminated d, start⟩ s := by
  simp only [closed, ends_bind, ends_delimiter?]
  split
  · rfl
  · simp only [ends_get]
    split <;> rfl

/-- After a body that ends where it may, a closing that is missing is one that was never written. -/
theorem ends_closed_of_body {d : Delimiter} {start : Nat} {ok : Leaf → Scanner → Prop}
    (h : ¬ d.closing <+: s.rest → d = .arithmetic ∨ s.rest = []) :
    Ends (closed d start) s ok bad ↔
      if d.closing <+: s.rest then
        ok ⟨.quote, s.rest.take d.closing.length, s.pos⟩ (s.skip d.closing.length)
      else bad ⟨.unterminated d, start⟩ s := by
  rw [ends_closed]
  split
  · rfl
  · rename_i hc
    have hend : ¬ (d = .arithmeticGroup ∧ s.rest ≠ []) := by
      rintro ⟨rfl, hne⟩
      exact (h hc).elim nofun hne
    rw [if_neg hend]

theorem ends_reference {inner : Inner} {ok : Node → Scanner → Prop}
    (hd : s.role? = some .dollar) :
    Ends (reference inner) s ok bad ↔
      if ascii "$((" <+: s.rest then Ends (expansion inner) s ok bad
      else if ascii "$(" <+: s.rest then Ends (enclosure inner .commandSubstitution) s ok bad
      else if ascii "$\x7b" <+: s.rest then
        bad ⟨.unsupported "`$\x7b...\x7d` parameter expansion", s.pos⟩ s
      else ok (.leaf ⟨.variable, s.rest.take (Lexeme.reference s.rest), s.pos⟩)
        (s.skip (Lexeme.reference s.rest)) := by
  simp only [reference, ends_bind, ends_get, List.isPrefixOf_iff_prefix, hd, ne_eq,
    not_true_eq_false, if_false]
  split
  · rfl
  split
  · rfl
  split <;> rfl

theorem ends_reference_elsewhere {inner : Inner} {ok : Node → Scanner → Prop}
    (hd : s.role? ≠ some .dollar) :
    Ends (reference inner) s ok bad ↔ bad ⟨.internal "expected `$`", s.pos⟩ s := by
  simp only [reference, ends_bind, ends_get, if_pos hd, ends_internal]

theorem ends_within {state : State} :
    Ends (within state scan) s ok bad ↔
      Ends scan (s.enter state) (fun a t => ok a (t.enter s.state))
        (fun e t => bad e (t.enter s.state)) := by
  unfold Ends within
  cases scan (s.enter state) <;> rfl

end Primitives

/-- The rule for a loop. The invariant `inv` speaks of the budget that is left, of the nodes read
so far, the latest first, and of the scanner. -/
theorem ends_manyWithin {more : Scanner → Bool} {read : Scan Node}
    {bad : LexError → Scanner → Prop} (inv : Nat → List Node → Scanner → Prop)
    (step : ∀ budget nodes s, inv (budget + 1) nodes s → more s = true →
      Ends read s (fun node t => inv budget (node :: nodes) t) bad)
    (spent : ∀ nodes s, inv 0 nodes s → more s = true →
      bad ⟨.internal "nothing consumed", s.pos⟩ s)
    (budget : List UInt8) (nodes : List Node) (s : Scanner) (h : inv budget.length nodes s) :
    Ends (manyWithin more read budget nodes) s
      (fun result t => more t = false ∧ ∃ left, inv left result.reverse t) bad := by
  induction budget generalizing nodes s with
  | nil =>
    simp only [manyWithin, ends_bind, ends_get]
    split
    · rename_i hm
      exact spent nodes s h hm
    · rename_i hm
      exact ⟨by simpa using hm, 0, by simpa using h⟩
  | cons b budget ih =>
    simp only [manyWithin, ends_bind, ends_get]
    split
    · rename_i hm
      rw [ends_bind]
      refine (step _ nodes s h hm).imp ?_
      intro node t ht
      exact ih (node :: nodes) t ht
    · rename_i hm
      exact ⟨by simpa using hm, _, by simpa using h⟩

section Loops

variable {s t : Scanner} {more : Scanner → Bool} {read : Scan Node}

theorem manyWithin_more {budget : List UInt8} {latest : List Node} {node : Node} {b : UInt8}
    (hm : more s = true) (hr : read s = .ok node t) :
    manyWithin more read (b :: budget) latest s =
      manyWithin more read budget (node :: latest) t := by
  rw [manyWithin]
  change (if more s then _ else _ : Scan (List Node)) s = _
  rw [if_pos hm]
  change EStateM.bind read _ s = _
  simp only [EStateM.bind, hr]

theorem manyWithin_error {budget : List UInt8} {latest : List Node} {b : UInt8} {e : LexError}
    (hm : more s = true) (hr : read s = .error e t) :
    manyWithin more read (b :: budget) latest s = .error e t := by
  rw [manyWithin]
  change (if more s then _ else _ : Scan (List Node)) s = _
  rw [if_pos hm]
  change EStateM.bind read _ s = _
  simp only [EStateM.bind, hr]

theorem manyWithin_over {budget : List UInt8} {latest : List Node} (hm : more s = false) :
    manyWithin more read budget latest s = .ok latest.reverse s := by
  cases budget with
  | nil | cons =>
    rw [manyWithin]
    change (if more s then _ else _ : Scan (List Node)) s = _
    rw [hm]
    rfl

theorem map_run {α β : Type} (f : α → β) (scan : Scan α) (s : Scanner) :
    (f <$> scan) s =
      match scan s with
      | .ok a t => .ok (f a) t
      | .error e t => .error e t := by
  change EStateM.map f scan s = _
  unfold EStateM.map
  cases scan s <;> rfl

/-- What a loop comes to depends neither on the budget, if it is enough, nor on what was read before.
The induction is on the bytes that are left; `inv` is what makes each node take one at least. -/
theorem manyWithin_eq (inv : Scanner → Prop) (ready : ∀ s, more s = true → s.rest ≠ [])
    (step : ∀ s node t, inv s → more s = true → read s = .ok node t →
      inv t ∧ t.rest.length < s.rest.length) (hs : inv s) {budget budget' : List UInt8}
    (hb : s.rest.length ≤ budget.length) (hb' : s.rest.length ≤ budget'.length)
    (latest : List Node) :
    manyWithin more read budget latest s =
      ((latest.reverse ++ ·) <$> manyWithin more read budget' []) s := by
  generalize hn : s.rest.length = n at hb hb'
  induction n using Nat.strongRecOn generalizing s budget budget' latest with
  | ind n ih =>
  subst hn
  rw [map_run]
  cases hm : more s with
  | false =>
    rw [manyWithin_over hm, manyWithin_over hm]
    simp
  | true =>
    have hpos := List.length_pos_iff.mpr (ready s hm)
    obtain ⟨c, budget, rfl⟩ := List.exists_cons_of_length_pos (Nat.lt_of_lt_of_le hpos hb)
    obtain ⟨c', budget', rfl⟩ := List.exists_cons_of_length_pos (Nat.lt_of_lt_of_le hpos hb')
    cases hrun : read s with
    | error e t => rw [manyWithin_error hm hrun, manyWithin_error hm hrun]
    | ok node t =>
      obtain ⟨ht, hlt⟩ := step s node t hs hm hrun
      have hl : t.rest.length ≤ budget.length := by
        rw [List.length_cons] at hb
        omega
      have hl' : t.rest.length ≤ budget'.length := by
        rw [List.length_cons] at hb'
        omega
      have left := ih _ hlt ht (node :: latest) rfl hl hl'
      have right := ih _ hlt ht [node] rfl hl' hl'
      rw [manyWithin_more hm hrun, manyWithin_more hm hrun, left, right, map_run, map_run]
      cases manyWithin more read budget' [] t with
      | ok nodes u => simp
      | error e u => rfl

end Loops

end Scan

end ShellLex
