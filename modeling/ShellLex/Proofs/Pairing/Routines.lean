import ShellLex.Lexer
import ShellLex.Proofs.Pairing.Basic
import ShellLex.Proofs.Reading
/-!
The routines side by side, for any pairing: each is alike on both sides if the elements one level
deeper and the expansions are. What a routine does depends on the bytes that follow, and in a script
on the state.
-/
namespace ShellLex

/-- The readings of `$((` are alike, whatever the sides keep of earlier ones. -/
def Pairing.Expands (P : Pairing) (left right : Inner) : Prop :=
  ∀ related s t, P.Rel related s t → ascii "$((" <+: s.rest →
    P.Match related (Node.move P.move) (Scan.expansion left s) (Scan.expansion right t)

/-- The elements one level deeper are alike. The state matters in a script only. A side that alone
has no levels left may run out of them. -/
def Pairing.Deeper (P : Pairing) : (left right : Inner) → Prop
  | none, none => True
  | none, some _ => ∀ related s t, P.Rel related s t → P.Spent s
  | some _, none => P.Lacks
  | some read, some read' => ∀ form related s t, (form = .substitution → related = Eq) →
      P.Rel related s t → form.Ready s →
      P.Match related (Node.move P.move) (read form s) (read' form t)

theorem Scan.reserved?_moveAll (f : Nat → Nat) (nodes : List Node) :
    reserved? (Node.moveAll f nodes) =
      (reserved? nodes).map fun found => (found.1.move f, found.2) := by
  simp only [reserved?, Node.onlyLeaf?_moveAll]
  cases Node.onlyLeaf? .term nodes with
  | none => rfl
  | some l =>
    cases hr : reservation? l.data with
    | none => simp [hr]
    | some found => simp [hr, Leaf.move]

namespace Pairing

open Scan

variable {P : Pairing} {related : State → State → Prop} {left right : Inner} {d : Delimiter}

theorem goesOn_alike (hd : d = .commandSubstitution → related = Eq) {s t : Scanner}
    (h : P.Rel related s t) : d.goesOn t = d.goesOn s := by
  unfold Delimiter.goesOn
  rw [role? h]
  cases s.role? with
  | none => rfl
  | some r =>
    cases d with
    | commandSubstitution =>
      obtain rfl := hd rfl
      rw [P.state h]
    | _ => rfl

theorem body_alike {read read' : Enclosure → Scan Node} (hi : P.Deeper (some read) (some read')) :
    P.Alike related (Node.moveAll P.move) (d.inBody (many d.goesOn (read d.form)))
      (d.inBody (many d.goesOn (read' d.form))) := by
  by_cases hd : d = .commandSubstitution
  · subst hd
    apply alike_within
    refine alike_many (fun s t h => goesOn_alike (fun _ => rfl) h) ?_
    intro s t h hm
    exact hi _ _ s t (fun _ => rfl) h (ready_of_goesOn hm)
  · rw [inBody_of_ne hd, inBody_of_ne hd]
    refine alike_many (fun s t h => goesOn_alike (fun hc => absurd hc hd) h) ?_
    intro s t h hm
    exact hi _ _ s t (fun hf => absurd hf (form_ne_substitution hd)) h (ready_of_goesOn hm)

theorem enclosure_alike (hi : P.Deeper left right) :
    P.Alike related (Node.move P.move) (enclosure left d) (enclosure right d) := by
  apply alike_get
  intro s t hst
  apply (alike_opened d).bind
  intro opening
  match left, right, hi with
  | none, none, _ => exact alike_fail _ (P.pos hst)
  | none, some _, hi =>
    -- the limit is met on one side, whatever the other goes on to read
    intro s t h
    exact .spent rfl (hi _ _ _ h)
  | some _, none, hi =>
    intro s t _
    exact .lacking rfl hi
  | some read, some read', hi =>
    apply (body_alike hi).bind
    intro nodes
    apply (alike_closed d (P.pos hst)).bind
    intro closing
    exact alike_pure rfl

theorem attempt_alike (hi : P.Deeper left right) :
    P.Alike related (Node.move P.move) (attempt left) (attempt right) := by
  intro s t hst
  have first : P.Match related (Node.move P.move)
      (enclosure left .arithmetic (s.note (.attempt s.pos)))
      (enclosure right .arithmetic (t.note (.attempt t.pos))) :=
    enclosure_alike hi _ _ (P.note _ _ hst)
  unfold attempt
  generalize enclosure left .arithmetic (s.note (.attempt s.pos)) = l at first ⊢
  generalize enclosure right .arithmetic (t.note (.attempt t.pos)) = r at first ⊢
  cases first with
  | ok h => exact .ok h
  | @error e u v h =>
    by_cases hd : e.isTooDeep
    · simp only [LexError.move_isTooDeep, hd, if_true]
      exact .error h
    · simp only [LexError.move_isTooDeep, hd, Bool.false_eq_true, if_false]
      exact enclosure_alike hi _ _ (P.rewind hst (P.note _ _ h))
  | spent hd h =>
    simp only [if_pos hd]
    exact .spent hd h
  | @lacking l e v hd h =>
    simp only [if_pos hd]
    exact .lacking hd h

theorem leaf_alike {read : Scan Leaf} (h : P.Alike related (Leaf.move P.move) read read) :
    P.Alike related (Node.move P.move) (do return Node.leaf (← read))
      (do return Node.leaf (← read)) :=
  h.bind fun _ => alike_pure rfl

theorem reference_alike (hi : P.Deeper left right) (hx : P.Expands left right) :
    P.Alike related (Node.move P.move) (reference left) (reference right) := by
  apply match_get
  intro s t hst
  rw [P.rest hst, role? hst]
  split
  · exact alike_internal _ s t hst
  split
  · rename_i hp
    exact hx _ s t hst (List.isPrefixOf_iff_prefix.mp hp)
  split
  · exact enclosure_alike hi s t hst
  split
  · exact alike_fail _ (P.pos hst) s t hst
  · exact leaf_alike (alike_take _ _) s t hst

theorem escape_alike : P.Alike related (Node.move P.move) escape escape := by
  apply alike_get
  intro s t hst
  rw [P.rest hst]
  exact leaf_alike (alike_take _ _)

theorem wordPart_alike (hi : P.Deeper left right) (hx : P.Expands left right) :
    P.Alike related (Node.move P.move) (wordPart left) (wordPart right) := by
  apply alike_get
  intro s t hst
  rw [role? hst]
  split
  · exact leaf_alike (alike_take _ _)
  · exact escape_alike
  · exact enclosure_alike hi
  · exact reference_alike hi hx
  · exact leaf_alike (alike_takeWhile _ _)

theorem word_alike (hi : P.Deeper left right) (hx : P.Expands left right) :
    P.Alike related (Node.moveAll P.move) (word left) (word right) := by
  have inWord_eq {s t : Scanner} (h : P.Rel related s t) : inWord t = inWord s := by
    rw [inWord, role? h, inWord]
  have parts : P.Alike related (Node.moveAll P.move) (many inWord (wordPart left))
      (many inWord (wordPart right)) :=
    alike_many (fun _ _ h => inWord_eq h) fun s t h _ => wordPart_alike hi hx s t h
  apply parts.bind
  intro nodes
  cases nodes with
  | nil => exact alike_internal _
  | cons node nodes => exact alike_pure rfl

theorem quotedPart_alike (hi : P.Deeper left right) (hx : P.Expands left right) :
    P.Alike related (Node.move P.move) (quotedPart left) (quotedPart right) := by
  apply alike_get
  intro s t hst
  rw [role? hst]
  split
  · exact escape_alike
  · exact reference_alike hi hx
  · exact leaf_alike (alike_takeWhile _ _)

theorem arithmeticPart_alike (hi : P.Deeper left right) (hx : P.Expands left right) :
    P.Alike related (Node.move P.move) (arithmeticPart left) (arithmeticPart right) := by
  apply alike_get
  intro s t hst
  rw [P.rest hst]
  split
  · exact alike_internal _
  split
  · exact leaf_alike (alike_takeWhile _ _)
  · exact leaf_alike (alike_take _ _)
  · exact escape_alike
  · exact reference_alike hi hx
  · exact enclosure_alike hi
  split
  · exact leaf_alike (alike_take _ _)
  split
  · exact leaf_alike (alike_takeWhile _ _)
  split
  · exact leaf_alike (alike_take _ _)
  · exact leaf_alike (alike_take _ _)

theorem unexpected_alike (b : UInt8) :
    P.Alike related (Node.move P.move) (unexpected b) (unexpected b) := by
  apply alike_get
  intro s t hst
  exact alike_fail _ (P.pos hst)

theorem operator_alike : P.Alike related (Leaf.move P.move) operator operator := by
  apply alike_get
  intro s t hst
  rw [P.rest hst]
  exact alike_take _ _

theorem enter_alike {α : Type} {f : α → α} (state : State) {a b : α} (h : f a = b) :
    P.Alike Eq f (do Scan.enter state; return a) (do Scan.enter state; return b) :=
  (alike_enter state).bind fun _ => alike_pure h

theorem commandWord_alike (hi : P.Deeper left right) (hx : P.Expands left right) :
    P.Alike Eq (Node.move P.move) (commandWord left) (commandWord right) := by
  apply alike_get
  intro s t hst
  rw [← P.state hst]
  apply (word_alike hi hx).bind
  intro nodes
  by_cases hn : s.state = .normal
  · simp only [if_pos hn, reserved?_moveAll]
    cases reserved? nodes with
    | some found => exact enter_alike found.2 rfl
    | none => exact enter_alike .command rfl
  · simp only [if_neg hn]
    exact enter_alike .command rfl

theorem commandPart_alike (hi : P.Deeper left right) (hx : P.Expands left right) (r : Role) :
    P.Alike Eq (Node.move P.move) (commandPart left r) (commandPart right r) := by
  cases r with
  | separator | openParen | closeParen =>
    refine (alike_enter _).bind fun _ => operator_alike.bind fun leaf => ?_
    rw [Leaf.move_data]
    split
    · exact enter_alike _ rfl
    · exact alike_pure rfl
  | redirection => exact (alike_enter _).bind fun _ => leaf_alike operator_alike
  | _ => exact commandWord_alike hi hx

theorem caseSubject_alike (hi : P.Deeper left right) (hx : P.Expands left right) (b : UInt8) :
    P.Alike Eq (Node.move P.move) (caseSubject left b) (caseSubject right b) := by
  unfold caseSubject
  cases role b with
  | separator | openParen | closeParen | redirection => exact unexpected_alike b
  | _ => exact (word_alike hi hx).bind fun _ => enter_alike _ rfl

theorem caseIn_alike (b : UInt8) : P.Alike Eq (Node.move P.move) (caseIn b) (caseIn b) := by
  unfold caseIn
  split
  · exact unexpected_alike b
  · apply alike_get
    intro s t hst
    apply (alike_takeWhile _ _).bind
    intro leaf
    rw [Leaf.move_data]
    split
    · exact enter_alike _ rfl
    · exact alike_fail _ (P.pos hst)

theorem casePart_alike (hi : P.Deeper left right) (hx : P.Expands left right) (b : UInt8) :
    P.Alike Eq (Node.move P.move) (casePart left b) (casePart right b) := by
  unfold casePart
  cases role b with
  | openParen => exact leaf_alike (alike_take _ _)
  | closeParen => exact (alike_take _ _).bind fun _ => enter_alike _ rfl
  | separator | redirection => exact unexpected_alike b
  | _ =>
    apply (word_alike hi hx).bind
    intro nodes
    rw [Node.onlyLeaf?_filter_moveAll]
    cases (Node.onlyLeaf? .term nodes).filter (·.data = ascii "esac") with
    | some leaf => exact enter_alike _ rfl
    | none => exact alike_pure rfl

theorem scriptPart_alike (hi : P.Deeper left right) (hx : P.Expands left right) :
    P.Alike Eq (Node.move P.move) (scriptPart left) (scriptPart right) := by
  apply alike_get
  intro s t hst
  rw [P.rest hst, ← P.state hst]
  split
  · exact alike_internal _
  split
  · exact leaf_alike (alike_takeWhile _ _)
  · exact leaf_alike (alike_takeWhile _ _)
  · split
    · exact (alike_enter _).bind fun _ => leaf_alike (alike_take _ _)
    · exact leaf_alike (alike_take _ _)
  split
  · exact commandPart_alike hi hx _
  · exact commandPart_alike hi hx _
  · exact caseSubject_alike hi hx _
  · exact caseIn_alike _
  · exact casePart_alike hi hx _

/-- Elements of any form are alike. -/
theorem part_alike {form : Enclosure} (hi : P.Deeper left right) (hx : P.Expands left right)
    (hf : form = .substitution → related = Eq) :
    P.Alike related (Node.move P.move) (part left form) (part right form) := by
  cases form with
  | quotes => exact quotedPart_alike hi hx
  | substitution =>
    obtain rfl := hf rfl
    exact scriptPart_alike hi hx
  | arithmetic => exact arithmeticPart_alike hi hx

section Levels

variable (hx : ∀ levels, P.Deeper (deeper levels) (deeper levels) →
  P.Expands (deeper levels) (deeper levels))

include hx

/-- If the sides have the same levels, all is alike once the expansions are. -/
theorem deeper_alike (levels : Nat) : P.Deeper (deeper levels) (deeper levels) := by
  induction levels with
  | zero => trivial
  | succ levels ih =>
    intro form related s t hf hst _
    exact part_alike ih (hx levels ih) hf s t hst

theorem element_alike : P.Alike Eq (Node.move P.move) element element := by
  have hi := deeper_alike hx nestingLimit
  exact scriptPart_alike hi (hx nestingLimit hi)

theorem script_alike : P.Alike Eq (Node.moveAll P.move) script script := by
  refine alike_many ?_ ?_
  · intro s t h
    rw [P.rest h]
  · intro s t h _
    exact element_alike hx s t h

end Levels

end Pairing

end ShellLex
