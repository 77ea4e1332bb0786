import ShellLex.Proofs.Passage
/-!
The routines with a counter of the constructs that are open. A construct counts itself in and out,
and is refused where the counter stands at the limit. Counting comes to the same as handing down
the levels that are left, so the counter stands after a routine where it stood before.
-/
namespace ShellLex

structure Counter where
  scanner : Scanner
  depth : Nat

abbrev Counting := EStateM LexError Counter

namespace Counting

variable {α β : Type}

def lift (scan : Scan α) : Counting α := fun c =>
  match scan c.scanner with
  | .ok a t => .ok a { c with scanner := t }
  | .error e t => .error e { c with scanner := t }

/-- Counts one construct in and, however its body ends, out again. -/
def nested (start : Nat) (body : Counting α) : Counting α := fun c =>
  if nestingLimit ≤ c.depth then .error ⟨.tooDeep nestingLimit, start⟩ c
  else
    match body { c with depth := c.depth + 1 } with
    | .ok a t => .ok a { t with depth := t.depth - 1 }
    | .error e t => .error e { t with depth := t.depth - 1 }

def within (state : State) (body : Counting α) : Counting α := fun c =>
  match body { c with scanner := c.scanner.enter state } with
  | .ok a t => .ok a { t with scanner := t.scanner.enter c.scanner.state }
  | .error e t => .error e { t with scanner := t.scanner.enter c.scanner.state }

def manyWithin (more : Scanner → Bool) (read : Counting Node) :
    (budget : List UInt8) → List Node → Counting (List Node)
  | [], nodes => do
    if more (← get).scanner then lift (Scan.internal "nothing consumed")
    else return nodes.reverse
  | _ :: budget, nodes => do
    if more (← get).scanner then manyWithin more read budget ((← read) :: nodes)
    else return nodes.reverse

def many (more : Scanner → Bool) (read : Counting Node) : Counting (List Node) := do
  manyWithin more read (← get).scanner.rest []

def inBody (d : Delimiter) (body : Counting α) : Counting α :=
  match d with
  | .commandSubstitution => within .normal body
  | .doubleQuote | .arithmetic | .arithmeticGroup => body

section Routines

variable (element : Enclosure → Counting Node)

def enclosure (d : Delimiter) : Counting Node := do
  let start := (← get).scanner.pos
  let opening ← lift (Scan.opened d)
  let nodes ← nested start (inBody d (many d.goesOn (element d.form)))
  let closing ← lift (Scan.closed d start)
  return .enclosed d.form opening nodes closing

def attempt : Counting Node := fun c =>
  let s := c.scanner
  match enclosure element .arithmetic { c with scanner := s.note (.attempt s.pos) } with
  | .ok node t => .ok node t
  | .error e t =>
    if e.isTooDeep then .error e t
    else enclosure element .commandSubstitution { t with scanner := s.again e t.scanner }

def expansion : Counting Node := fun c =>
  let s := c.scanner
  match s.outcome? with
  | some _ => lift (Scan.expansion none) c
  | none =>
    match attempt element c with
    | .ok node t => .ok node { t with scanner := t.scanner.record s.pos ⟨.ok node, t.scanner.pos⟩ }
    | .error e t =>
      .error e (if e.isTooDeep then t
        else { t with scanner := t.scanner.record s.pos ⟨.error e, t.scanner.pos⟩ })

def reference : Counting Node := do
  let s := (← get).scanner
  if s.role? ≠ some .dollar then lift (Scan.internal "expected `$`")
  else if (ascii "$((").isPrefixOf s.rest then expansion element
  else if (ascii "$(").isPrefixOf s.rest then enclosure element .commandSubstitution
  else lift (Scan.reference none)

def wordPart : Counting Node := do
  match (← get).scanner.role? with
  | some .quote => enclosure element .doubleQuote
  | some .dollar => reference element
  | _ => lift (Scan.wordPart none)

def word : Counting (List Node) := do
  match ← many Scan.inWord (wordPart element) with
  | [] => lift (Scan.internal "word without elements")
  | nodes => return nodes

def quotedPart : Counting Node := do
  match (← get).scanner.role? with
  | some .dollar => reference element
  | _ => lift (Scan.quotedPart none)

def arithmeticPart : Counting Node := do
  match (← get).scanner.role? with
  | some .dollar => reference element
  | some .openParen => enclosure element .arithmeticGroup
  | _ => lift (Scan.arithmeticPart none)

def commandWord : Counting Node := do
  let state := (← get).scanner.state
  let nodes ← word element
  match if state = .normal then Scan.reserved? nodes else none with
  | some (leaf, next) =>
    lift (Scan.enter next)
    return .leaf leaf
  | none =>
    lift (Scan.enter .command)
    return .word nodes

def caseSubject : Counting Node := do
  let nodes ← word element
  lift (Scan.enter .caseIn)
  return .word nodes

def casePart : Counting Node := do
  let nodes ← word element
  match (Node.onlyLeaf? .term nodes).filter (·.data = ascii "esac") with
  | some leaf =>
    lift (Scan.enter .normal)
    return .leaf { leaf with kind := .keyword }
  | none => return .word nodes

def scriptPart : Counting Node := do
  let s := (← get).scanner
  if Scan.inWord s then
    match s.state with
    | .normal | .command => commandWord element
    | .caseSubject => caseSubject element
    | .casePattern => casePart element
    | .caseIn => lift (Scan.scriptPart none)
  else lift (Scan.scriptPart none)

def part : Enclosure → Counting Node
  | .quotes => quotedPart element
  | .substitution => scriptPart element
  | .arithmetic => arithmeticPart element

end Routines

/-- The elements of bodies. No more constructs than the limit are opened one in another, so that
many rounds are enough. -/
def elements : (rounds : Nat) → Enclosure → Counting Node
  | 0 => fun _ => lift (Scan.internal "nothing consumed")
  | rounds + 1 => part (elements rounds)

/-- At a depth, counting comes to the same as scanning, and leaves the depth. -/
def Tracks (depth : Nat) (count : Counting α) (scan : Scan α) : Prop :=
  ∀ s, count ⟨s, depth⟩ = lift scan ⟨s, depth⟩

section Rules

variable {depth : Nat}

theorem tracks_lift (scan : Scan α) : Tracks depth (lift scan) scan := fun _ => rfl

theorem get_bind (next : Scanner → Scan α) (s : Scanner) : (get >>= next) s = next s s := rfl

theorem lift_congr {scan scan' : Scan α} {s : Scanner} (h : scan s = scan' s) :
    lift scan ⟨s, depth⟩ = lift scan' ⟨s, depth⟩ := by
  simp only [lift, h]

theorem tracks_pure (a : α) : Tracks depth (pure a) (pure a) := fun _ => rfl

theorem Tracks.bind {count : Counting α} {scan : Scan α} {next : α → Counting β}
    {next' : α → Scan β} (h : Tracks depth count scan) (k : ∀ a, Tracks depth (next a) (next' a)) :
    Tracks depth (count >>= next) (scan >>= next') := by
  intro s
  change EStateM.bind count next _ = lift (EStateM.bind scan next') _
  simp only [EStateM.bind, lift, h s]
  cases scan s with
  | ok a t => exact k a t
  | error e t => rfl

theorem tracks_get {next : Counter → Counting α} {next' : Scanner → Scan α}
    (h : ∀ s, next ⟨s, depth⟩ ⟨s, depth⟩ = lift (next' s) ⟨s, depth⟩) :
    Tracks depth (get >>= next) (get >>= next') := h

theorem Tracks.nested {count : Counting α} {scan : Scan α} (start : Nat)
    (hd : depth < nestingLimit) (h : Tracks (depth + 1) count scan) :
    Tracks depth (nested start count) scan := by
  intro s
  simp only [Counting.nested, if_neg (Nat.not_le.mpr hd), h s, lift]
  cases scan s <;> rfl

theorem Tracks.within {count : Counting α} {scan : Scan α} (state : State)
    (h : Tracks depth count scan) : Tracks depth (within state count) (Scan.within state scan) := by
  intro s
  simp only [Counting.within, Scan.within, h _, lift]
  cases scan (s.enter state) <;> rfl

theorem Tracks.many {read : Counting Node} {read' : Scan Node} (more : Scanner → Bool)
    (h : Tracks depth read read') : Tracks depth (many more read) (Scan.many more read') := by
  have loop (budget : List UInt8) (nodes : List Node) :
      Tracks depth (manyWithin more read budget nodes)
        (Scan.manyWithin more read' budget nodes) := by
    induction budget generalizing nodes with
    | nil =>
      apply tracks_get
      intro s
      cases more s <;> rfl
    | cons b budget ih =>
      apply tracks_get
      intro s
      cases more s with
      | false => rfl
      | true => exact h.bind (fun node => ih (node :: nodes)) s
  exact tracks_get fun s => loop s.rest [] s

theorem Tracks.inBody {count : Counting α} {scan : Scan α} (d : Delimiter)
    (h : Tracks depth count scan) : Tracks depth (inBody d count) (d.inBody scan) := by
  cases d with
  | commandSubstitution => exact h.within .normal
  | doubleQuote | arithmetic | arithmeticGroup => exact h

end Rules

/-- The elements one level deeper are those of `inner`, which there are below the limit only. -/
def Beneath (depth : Nat) (element : Enclosure → Counting Node) : Inner → Prop
  | none => nestingLimit ≤ depth
  | some read => depth < nestingLimit ∧ ∀ form, Tracks (depth + 1) (element form) (read form)

section Agreement

variable {depth : Nat} {element : Enclosure → Counting Node} {inner : Inner}

theorem enclosure_tracks (h : Beneath depth element inner) (d : Delimiter) :
    Tracks depth (enclosure element d) (Scan.enclosure inner d) := by
  apply tracks_get
  intro s
  refine (tracks_lift _).bind (fun opening => ?_) s
  cases inner with
  | none =>
    intro t
    change EStateM.bind (nested _ _) _ _ = _
    have hlimit : nestingLimit ≤ depth := h
    simp only [EStateM.bind, nested, if_pos hlimit]
    rfl
  | some read =>
    have hbody := ((h.2 d.form).many d.goesOn).inBody d
    exact (hbody.nested s.pos h.1).bind fun nodes =>
      (tracks_lift _).bind fun closing => tracks_pure _

theorem attempt_tracks (h : Beneath depth element inner) :
    Tracks depth (attempt element) (Scan.attempt inner) := by
  intro s
  have first := enclosure_tracks h .arithmetic (s.note (.attempt s.pos))
  simp only [attempt, lift, Scan.attempt, first]
  cases Scan.enclosure inner .arithmetic (s.note (.attempt s.pos)) with
  | ok node t => rfl
  | error e t =>
    by_cases hdeep : e.isTooDeep
    · simp only [if_pos hdeep]
    · simp only [if_neg hdeep]
      exact enclosure_tracks h .commandSubstitution (s.again e t)

theorem expansion_tracks (h : Beneath depth element inner) :
    Tracks depth (expansion element) (Scan.expansion inner) := by
  intro s
  have run := attempt_tracks h s
  unfold expansion lift
  cases ho : s.outcome? with
  | some outcome =>
    simp only [ho, Scan.expansion_recall ho]
  | none =>
    simp only [ho, run, lift, Scan.expansion_afresh ho]
    cases Scan.attempt inner s with
    | ok node t => rfl
    | error e t => by_cases hdeep : e.isTooDeep <;> simp [hdeep]

theorem reference_tracks (h : Beneath depth element inner) :
    Tracks depth (reference element) (Scan.reference inner) := by
  apply tracks_get
  intro s
  dsimp only
  split
  · exact tracks_lift _ s
  split
  · exact expansion_tracks h s
  split
  · exact enclosure_tracks h .commandSubstitution s
  · rename_i hdollar hexpansion hsubstitution
    refine lift_congr ?_
    change (if _ then _ else if _ then _ else if _ then _ else _ : Scan Node) s = _
    rw [if_neg hdollar, if_neg hexpansion, if_neg hsubstitution]

theorem wordPart_tracks (h : Beneath depth element inner) :
    Tracks depth (wordPart element) (Scan.wordPart inner) := by
  apply tracks_get
  intro s
  cases hr : s.role? with
  | none => exact lift_congr (by rw [Scan.wordPart, get_bind, hr])
  | some r =>
    cases r with
    | quote => exact enclosure_tracks h .doubleQuote s
    | dollar => exact reference_tracks h s
    | _ => exact lift_congr (by rw [Scan.wordPart, get_bind, hr])

theorem word_tracks (h : Beneath depth element inner) :
    Tracks depth (word element) (Scan.word inner) := by
  refine ((wordPart_tracks h).many Scan.inWord).bind fun nodes => ?_
  cases nodes with
  | nil => exact tracks_lift _
  | cons node nodes => exact tracks_pure _

theorem quotedPart_tracks (h : Beneath depth element inner) :
    Tracks depth (quotedPart element) (Scan.quotedPart inner) := by
  apply tracks_get
  intro s
  cases hr : s.role? with
  | none => exact lift_congr (by rw [Scan.quotedPart, get_bind, hr])
  | some r =>
    cases r with
    | dollar => exact reference_tracks h s
    | _ => exact lift_congr (by rw [Scan.quotedPart, get_bind, hr])

theorem arithmeticPart_tracks (h : Beneath depth element inner) :
    Tracks depth (arithmeticPart element) (Scan.arithmeticPart inner) := by
  apply tracks_get
  intro s
  cases hr : s.rest with
  | nil =>
    have hrole : s.role? = none := by simp [Scanner.role?, hr]
    simp only [hrole]
    exact lift_congr (by rw [Scan.arithmeticPart, get_bind, hr])
  | cons b bytes =>
    simp only [Scanner.role?_cons hr]
    cases hb : role b with
    | dollar => exact reference_tracks h s
    | openParen => exact enclosure_tracks h .arithmeticGroup s
    | _ =>
      refine lift_congr ?_
      rw [Scan.arithmeticPart, get_bind, hr]
      dsimp only
      rw [hb]

theorem commandWord_tracks (h : Beneath depth element inner) :
    Tracks depth (commandWord element) (Scan.commandWord inner) := by
  apply tracks_get
  intro s
  refine (word_tracks h).bind (fun nodes => ?_) s
  dsimp only
  generalize (if s.state = .normal then Scan.reserved? nodes else none) = found
  cases found with
  | some found => exact (tracks_lift _).bind fun _ => tracks_pure _
  | none => exact (tracks_lift _).bind fun _ => tracks_pure _

theorem caseSubject_tracks (h : Beneath depth element inner) {b : UInt8}
    (hb : (role b).endsWord = false) :
    Tracks depth (caseSubject element) (Scan.caseSubject inner b) := by
  unfold Scan.caseSubject
  cases hrole : role b with
  | mark | backslash | quote | dollar | plain =>
    exact (word_tracks h).bind fun nodes => (tracks_lift _).bind fun _ => tracks_pure _
  | _ => simp [hrole, Role.endsWord] at hb

theorem casePart_tracks (h : Beneath depth element inner) {b : UInt8}
    (hb : (role b).endsWord = false) :
    Tracks depth (casePart element) (Scan.casePart inner b) := by
  unfold Scan.casePart
  cases hrole : role b with
  | mark | backslash | quote | dollar | plain =>
    refine (word_tracks h).bind fun nodes => ?_
    generalize (Node.onlyLeaf? .term nodes).filter _ = found
    cases found with
    | some leaf => exact (tracks_lift _).bind fun _ => tracks_pure _
    | none => exact tracks_pure _
  | _ => simp [hrole, Role.endsWord] at hb

theorem commandPart_tracks (h : Beneath depth element inner) {b : UInt8}
    (hb : (role b).endsWord = false) :
    Tracks depth (commandWord element) (Scan.commandPart inner (role b)) := by
  unfold Scan.commandPart
  cases hrole : role b with
  | mark | backslash | quote | dollar | plain => exact commandWord_tracks h
  | _ => simp [hrole, Role.endsWord] at hb

/-- What begins no word has no constructs in it. -/
theorem scriptPart_eq {s : Scanner} (hw : Scan.inWord s = false ∨ s.state = .caseIn) :
    Scan.scriptPart none s = Scan.scriptPart inner s := by
  rw [Scan.scriptPart, Scan.scriptPart, get_bind, get_bind]
  cases hr : s.rest with
  | nil => rfl
  | cons b bytes =>
    rw [Scan.inWord, Scanner.role?_cons hr] at hw
    cases hrole : role b with
    | blank | hash | newline => simp only [hrole]
    | mark | backslash | quote | dollar | plain =>
      have hstate : s.state = .caseIn := by simpa [hrole, Role.endsWord] using hw
      simp only [hrole, hstate]
    | separator | openParen | closeParen | redirection =>
      cases hstate : s.state <;>
        simp only [hrole, Scan.commandPart, Scan.caseSubject, Scan.casePart]

/-- What begins a word is read as the state says. -/
theorem scriptPart_word {s : Scanner} {b : UInt8} {bytes : List UInt8} (hr : s.rest = b :: bytes)
    (hb : (role b).endsWord = false) :
    Scan.scriptPart inner s =
      (match s.state with
        | .normal | .command => Scan.commandPart inner (role b)
        | .caseSubject => Scan.caseSubject inner b
        | .caseIn => Scan.caseIn b
        | .casePattern => Scan.casePart inner b) s := by
  rw [Scan.scriptPart, get_bind, hr]
  cases hrole : role b with
  | mark | backslash | quote | dollar | plain => cases s.state <;> simp only [hrole]
  | _ => simp [hrole, Role.endsWord] at hb

theorem scriptPart_tracks (h : Beneath depth element inner) :
    Tracks depth (scriptPart element) (Scan.scriptPart inner) := by
  intro s
  change (if Scan.inWord s then _ else _ : Counting Node) _ = _
  by_cases hw : Scan.inWord s
  · obtain ⟨b, bytes, hrest, hb⟩ := Scan.inWord_cases hw
    rw [if_pos hw]
    cases hstate : s.state with
    | caseIn => exact lift_congr (scriptPart_eq (Or.inr hstate))
    | normal | command =>
      rw [lift_congr (scriptPart_word hrest hb), hstate]
      exact commandPart_tracks h hb s
    | caseSubject =>
      rw [lift_congr (scriptPart_word hrest hb), hstate]
      exact caseSubject_tracks h hb s
    | casePattern =>
      rw [lift_congr (scriptPart_word hrest hb), hstate]
      exact casePart_tracks h hb s
  · rw [if_neg hw]
    exact lift_congr (scriptPart_eq (Or.inl (by simpa using hw)))

theorem part_tracks (h : Beneath depth element inner) (form : Enclosure) :
    Tracks depth (part element form) (Scan.part inner form) := by
  cases form with
  | quotes => exact quotedPart_tracks h
  | substitution => exact scriptPart_tracks h
  | arithmetic => exact arithmeticPart_tracks h

end Agreement

/-- As many rounds as there are levels left below the limit are enough. -/
theorem elements_beneath (rounds depth : Nat) (h : nestingLimit ≤ rounds + depth) :
    Beneath depth (elements rounds) (Scan.deeper (nestingLimit - depth)) := by
  induction rounds generalizing depth with
  | zero =>
    rw [Nat.sub_eq_zero_of_le (by omega)]
    exact (by omega : nestingLimit ≤ depth)
  | succ rounds ih =>
    by_cases hd : nestingLimit ≤ depth
    · rw [Nat.sub_eq_zero_of_le hd]
      exact hd
    · have hlevels : nestingLimit - depth = nestingLimit - (depth + 1) + 1 := by omega
      rw [hlevels]
      exact ⟨by omega, part_tracks (ih (depth + 1) (by omega))⟩

end Counting

end ShellLex
