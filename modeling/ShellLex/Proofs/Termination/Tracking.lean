import ShellLex.Proofs.Counter
import ShellLex.Proofs.Termination.Descent
/-!
The trees beside the scans. If each call is answered by what its routine scans, a tree runs to what
the scan of its own routine comes to. Only a loop needs more for that: its budget has to last.
-/
namespace ShellLex

def Scan.entered : (levels : Nat) → Delimiter → (start : Nat) → Scan (List Node)
  | 0, _, start => fail (.tooDeep nestingLimit) start
  | levels + 1, d, _ => (Routine.body d).scan (deeper levels)

/-- What the tree comes to if a call is answered by what its routine scans. -/
def CallTree.run {α : Type} (levels : Nat) : CallTree α → Scan.Result α
  | .ends result => result
  | .calls r s next => (next (r.scan (Scan.deeper levels) s)).run levels
  | .enters d start s next => (next (Scan.entered levels d start s)).run levels

namespace Calling

variable {α β : Type} {levels : Nat}

def Tracks (levels : Nat) (x : Calling α) (scan : Scan α) : Prop :=
  ∀ s, CallTree.run levels (x s) = scan s

section Rules

theorem run_after (c : CallTree α) (f : Scan.Result α → CallTree β) :
    (c.after f).run levels = (f (c.run levels)).run levels := by
  induction c with
  | ends result => rfl
  | calls r s next ih => exact ih _
  | enters d start s next ih => exact ih _

theorem tracks_pure (a : α) : Tracks levels (pure a) (pure a) := fun _ => rfl

theorem tracks_lift (scan : Scan α) : Tracks levels (liftM scan) scan := fun _ => rfl

theorem tracks_ask (r : Routine) : Tracks levels (ask r) (r.scan (Scan.deeper levels)) :=
  fun _ => rfl

theorem tracks_enter (d : Delimiter) (start : Nat) :
    Tracks levels (enter d start) (Scan.entered levels d start) := fun _ => rfl

theorem Tracks.bind {x : Calling α} {scan : Scan α} {f : α → Calling β} {next : α → Scan β}
    (h : Tracks levels x scan) (k : ∀ a, Tracks levels (f a) (next a)) :
    Tracks levels (x >>= f) (scan >>= next) := by
  intro s
  change ((x s).after _).run levels = EStateM.bind scan next s
  rw [run_after, h s, EStateM.bind]
  cases scan s with
  | ok a t => exact k a t
  | error e t => rfl

theorem tracks_get {f : Scanner → Calling α} {next : Scanner → Scan α}
    (h : ∀ s, CallTree.run levels (f s s) = next s s) :
    Tracks levels (get >>= f) (get >>= next) := h

theorem Tracks.within {x : Calling α} {scan : Scan α} (state : State)
    (h : Tracks levels x scan) : Tracks levels (within state x) (Scan.within state scan) := by
  intro s
  rw [Calling.within, run_after, h (s.enter state), Scan.within]
  cases scan (s.enter state) <;> rfl

end Rules

theorem construct_tracks (d : Delimiter) :
    Tracks levels (construct d) (Scan.enclosure (Scan.deeper levels) d) := by
  apply tracks_get
  intro s
  refine (tracks_lift _).bind (fun opening => ?_) s
  cases levels with
  | zero => exact fun _ => rfl
  | succ levels =>
    exact (tracks_enter d s.pos).bind fun nodes =>
      (tracks_lift _).bind fun closing => tracks_pure _

theorem attempt_tracks : Tracks levels attempt (Scan.attempt (Scan.deeper levels)) := by
  intro s
  rw [attempt, run_after, tracks_ask, Routine.scan, Scan.attempt]
  cases Scan.enclosure (Scan.deeper levels) .arithmetic (s.note (.attempt s.pos)) with
  | ok node t => rfl
  | error e t =>
    dsimp only
    split <;> rfl

theorem expansion_tracks : Tracks levels expansion (Scan.expansion (Scan.deeper levels)) := by
  intro s
  rw [expansion]
  cases ho : s.outcome? with
  | some outcome =>
    change Scan.expansion none s = _
    rw [Scan.expansion_recall ho, Scan.expansion_recall ho]
  | none =>
    dsimp only
    rw [run_after, tracks_ask, Routine.scan, Scan.expansion_afresh ho]
    cases Scan.attempt (Scan.deeper levels) s <;> rfl

theorem reference_tracks : Tracks levels reference (Scan.reference (Scan.deeper levels)) := by
  apply tracks_get
  intro s
  split
  · rfl
  split
  · rfl
  split
  · rfl
  · rename_i hd he hc
    change (if _ then _ else if _ then _ else if _ then _ else _ : Scan Node) s = _
    rw [if_neg hd, if_neg he, if_neg hc]

theorem part_tracks : Tracks levels part (Scan.wordPart (Scan.deeper levels)) := by
  apply tracks_get
  intro s
  cases hr : s.role? with
  | none =>
    change Scan.wordPart none s = _
    rw [Scan.wordPart, Counting.get_bind, hr]
  | some r =>
    cases r with
    | quote | dollar => rfl
    | _ =>
      change Scan.wordPart none s = _
      rw [Scan.wordPart, Counting.get_bind, hr]

theorem word_tracks : Tracks levels word (Scan.word (Scan.deeper levels)) := by
  refine (tracks_ask .parts).bind fun nodes => ?_
  cases nodes with
  | nil => exact tracks_lift _
  | cons node nodes => exact tracks_pure _

theorem commandWord_tracks : Tracks levels commandWord (Scan.commandWord (Scan.deeper levels)) := by
  apply tracks_get
  intro s
  refine (tracks_ask .word).bind (fun nodes => ?_) s
  generalize (if s.state = .normal then Scan.reserved? nodes else none) = found
  cases found with
  | some found => exact (tracks_lift _).bind fun _ => tracks_pure _
  | none => exact (tracks_lift _).bind fun _ => tracks_pure _

theorem caseSubject_tracks {b : UInt8} (hb : (role b).endsWord = false) :
    Tracks levels caseSubject (Scan.caseSubject (Scan.deeper levels) b) := by
  unfold Scan.caseSubject
  cases hrole : role b with
  | mark | backslash | quote | dollar | plain =>
    exact (tracks_ask .word).bind fun nodes => (tracks_lift _).bind fun _ => tracks_pure _
  | _ => simp [hrole, Role.endsWord] at hb

theorem casePart_tracks {b : UInt8} (hb : (role b).endsWord = false) :
    Tracks levels casePart (Scan.casePart (Scan.deeper levels) b) := by
  unfold Scan.casePart
  cases hrole : role b with
  | mark | backslash | quote | dollar | plain =>
    refine (tracks_ask .word).bind fun nodes => ?_
    generalize (Node.onlyLeaf? .term nodes).filter _ = found
    cases found with
    | some leaf => exact (tracks_lift _).bind fun _ => tracks_pure _
    | none => exact tracks_pure _
  | _ => simp [hrole, Role.endsWord] at hb

theorem commandPart_tracks {b : UInt8} (hb : (role b).endsWord = false) :
    Tracks levels commandWord (Scan.commandPart (Scan.deeper levels) (role b)) := by
  unfold Scan.commandPart
  cases hrole : role b with
  | mark | backslash | quote | dollar | plain => exact commandWord_tracks
  | _ => simp [hrole, Role.endsWord] at hb

theorem quotes_tracks :
    Tracks levels (element .quotes) (Scan.quotedPart (Scan.deeper levels)) := by
  apply tracks_get
  intro s
  cases hr : s.role? with
  | none =>
    change Scan.quotedPart none s = _
    rw [Scan.quotedPart, Counting.get_bind, hr]
  | some r =>
    cases r with
    | dollar => rfl
    | _ =>
      change Scan.quotedPart none s = _
      rw [Scan.quotedPart, Counting.get_bind, hr]

theorem arithmetic_tracks :
    Tracks levels (element .arithmetic) (Scan.arithmeticPart (Scan.deeper levels)) := by
  apply tracks_get
  intro s
  cases hr : s.rest with
  | nil =>
    have hrole : s.role? = none := by simp [Scanner.role?, hr]
    rw [hrole]
    change Scan.arithmeticPart none s = _
    rw [Scan.arithmeticPart, Counting.get_bind, hr]
  | cons b bytes =>
    simp only [Scanner.role?_cons hr]
    cases hb : role b with
    | dollar | openParen => rfl
    | _ =>
      change Scan.arithmeticPart none s = _
      rw [Scan.arithmeticPart, Counting.get_bind, hr]
      dsimp only
      rw [hb]

theorem substitution_tracks :
    Tracks levels (element .substitution) (Scan.scriptPart (Scan.deeper levels)) := by
  intro s
  change CallTree.run levels ((if Scan.inWord s then _ else _ : Calling Node) s) = _
  by_cases hw : Scan.inWord s
  · obtain ⟨b, bytes, hrest, hb⟩ := Scan.inWord_cases hw
    rw [if_pos hw]
    cases hstate : s.state with
    | caseIn => exact Counting.scriptPart_eq (Or.inr hstate)
    | normal | command =>
      rw [Counting.scriptPart_word hrest hb, hstate]
      exact commandPart_tracks hb s
    | caseSubject =>
      rw [Counting.scriptPart_word hrest hb, hstate]
      exact caseSubject_tracks hb s
    | casePattern =>
      rw [Counting.scriptPart_word hrest hb, hstate]
      exact casePart_tracks hb s
  · rw [if_neg hw]
    exact Counting.scriptPart_eq (Or.inl (by simpa using hw))

theorem body_tracks (d : Delimiter) :
    Tracks levels (inBody d (ask (.elements d))) ((Routine.body d).scan (Scan.deeper levels)) := by
  cases d with
  | commandSubstitution => exact (tracks_ask _).within .normal
  | doubleQuote | arithmetic | arithmeticGroup => exact tracks_ask _

theorem call_tracks : Tracks levels call (Routine.call.scan (Scan.deeper levels)) := by
  apply tracks_get
  intro s
  split
  · rfl
  · exact (tracks_ask (.element .substitution)).bind (fun _ => tracks_pure _) s

end Calling

namespace Scan

variable {source : List UInt8} {more : Scanner → Bool} {read : Scan Node} {s t : Scanner}

def unrolled (more : Scanner → Bool) (read : Scan Node) : Scan (List Node) := do
  if more (← get) then return (← read) :: (← many more read) else return []

theorem unrolled_more {node : Node} (hm : more s = true) (hr : read s = .ok node t) :
    unrolled more read s = ((node :: ·) <$> many more read) t := by
  rw [unrolled, map_run]
  change (if more s then _ else _ : Scan (List Node)) s = _
  rw [if_pos hm]
  change EStateM.bind read _ s = _
  simp only [EStateM.bind, hr]
  change EStateM.bind (many more read) _ t = _
  unfold EStateM.bind
  cases many more read t <;> rfl

theorem unrolled_error {e : LexError} (hm : more s = true) (hr : read s = .error e t) :
    unrolled more read s = .error e t := by
  rw [unrolled]
  change (if more s then _ else _ : Scan (List Node)) s = _
  rw [if_pos hm]
  change EStateM.bind read _ s = _
  simp only [EStateM.bind, hr]

/-- While each node gains, the budget of a loop is never used up. -/
theorem many_unrolled (ready : ∀ t, more t = true → t.rest ≠ []) (hs : s.Bounded source)
    (h : ∀ t, s.Goes source t → Moves source read t) :
    many more read s = unrolled more read s := by
  change manyWithin more read s.rest [] s = _
  cases hm : more s with
  | false =>
    rw [manyWithin_over hm, unrolled]
    change _ = (if more s then _ else _ : Scan (List Node)) s
    rw [hm]
    rfl
  | true =>
    have step (t u : Scanner) (node : Node) (ht : s.Goes source t) (hm : more t = true)
        (hr : read t = .ok node u) : s.Goes source u ∧ u.rest.length < t.rest.length := by
      have gains : t.Gains source [node] u := (h t ht).of_ok hr
      have hlt := gains.further (ready t hm) (List.cons_ne_nil _ _)
      have hw := gains.bounded.within
      rw [gains.bounded.length, ht.bounded.length]
      exact ⟨ht.trans gains.toGoes, by omega⟩
    obtain ⟨b, bytes, hrest⟩ := List.exists_cons_of_ne_nil (ready s hm)
    rw [hrest]
    cases hr : read s with
    | error e t => rw [manyWithin_error hm hr, unrolled_error hm hr]
    | ok node t =>
      obtain ⟨ht, hlt⟩ := step s t node hs.stay hm hr
      have hbytes : t.rest.length ≤ bytes.length := by
        rw [hrest, List.length_cons] at hlt
        omega
      rw [manyWithin_more hm hr, unrolled_more hm hr]
      exact manyWithin_eq (s.Goes source) ready (fun t node u ht => step t u node ht) ht hbytes
        (Nat.le_refl _) [node]

end Scan

namespace Calling

variable {levels : Nat}

theorem parts_tracks :
    Tracks levels parts (Scan.unrolled Scan.inWord (Scan.wordPart (Scan.deeper levels))) := by
  apply tracks_get
  intro s
  split
  · exact ((tracks_ask .part).bind fun _ => (tracks_ask .parts).bind fun _ => tracks_pure _) s
  · rfl

theorem elements_tracks (d : Delimiter) :
    Tracks levels (elements d) (Scan.unrolled d.goesOn (Scan.part (Scan.deeper levels) d.form)) := by
  apply tracks_get
  intro s
  split
  · exact ((tracks_ask (.element d.form)).bind fun _ =>
      (tracks_ask (.elements d)).bind fun _ => tracks_pure _) s
  · rfl

end Calling

/-- The tree runs to what the routine scans. In a loop that takes what is read in it to be a gain. -/
theorem Routine.run_tree {source : List UInt8} {s : Scanner} {levels : Nat} (hs : s.Bounded source)
    (r : Routine)
    (parts : r = .parts → ∀ t, s.Goes source t →
      Scan.Moves source (Scan.wordPart (Scan.deeper levels)) t)
    (elements : ∀ d, r = .elements d → ∀ t, s.Goes source t →
      Scan.Moves source (Scan.part (Scan.deeper levels) d.form) t) :
    (r.tree s).run levels = r.scan (Scan.deeper levels) s := by
  cases r with
  | call => exact Calling.call_tracks s
  | element form =>
    cases form with
    | quotes => exact Calling.quotes_tracks s
    | substitution => exact Calling.substitution_tracks s
    | arithmetic => exact Calling.arithmetic_tracks s
  | word => exact Calling.word_tracks s
  | part => exact Calling.part_tracks s
  | reference => exact Calling.reference_tracks s
  | expansion => exact Calling.expansion_tracks s
  | attempt => exact Calling.attempt_tracks s
  | construct d => exact Calling.construct_tracks d s
  | body d => exact Calling.body_tracks d s
  | parts =>
    have ready (t : Scanner) (hw : Scan.inWord t = true) : t.rest ≠ [] := by
      obtain ⟨b, bytes, hr, _⟩ := Scan.inWord_cases hw
      simp [hr]
    exact (Calling.parts_tracks s).trans (Scan.many_unrolled ready hs (parts rfl)).symm
  | elements d =>
    exact (Calling.elements_tracks d s).trans
      (Scan.many_unrolled (fun _ => Scan.rest_ne_nil_of_goesOn) hs (elements d rfl)).symm

end ShellLex
