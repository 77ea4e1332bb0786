import ShellLex.Proofs.Recall
/-!
What a routine reads from an offset on. Without a table, it answers and goes on as the bytes that
follow say, and only a script looks at the state.
-/
namespace ShellLex

structure Scanner.At (source : List UInt8) (pos : Nat) (state : State) (s : Scanner) : Prop where
  fits : s.Fits source False
  pos : s.pos = pos
  state : s.state = state

namespace Scanner.At

variable {source : List UInt8} {pos : Nat} {state : State} {s : Scanner}

theorem rest (h : s.At source pos state) : s.rest = source.drop pos := by
  rw [h.fits.rest, h.pos]

theorem skip (h : s.At source pos state) {size : Nat} (hs : size ≤ s.rest.length) :
    (s.skip size).At source (pos + size) state :=
  ⟨h.fits.skip size, by rw [Scanner.skip_pos hs, h.pos], h.state⟩

theorem enter (h : s.At source pos state) (next : State) : (s.enter next).At source pos next :=
  ⟨h.fits.enter next, by rw [Scanner.enter_pos, h.pos], Scanner.enter_state s next⟩

theorem note (h : s.At source pos state) (event : Event) : (s.note event).At source pos state :=
  ⟨h.fits.note event, h.pos, h.state⟩

end Scanner.At

def Scan.Reaches (source : List UInt8) {α : Type} (scan : Scan α) (s : Scanner) (a : α) (stop : Nat)
    (after : State) : Prop :=
  Scan.Ends scan s (fun b t => b = a ∧ t.At source stop after) fun _ _ => False

namespace Scan

variable {source : List UInt8} {s t : Scanner} {pos stop : Nat} {before after state : State}
  {more : Scanner → Bool} {read : Scan Node}

theorem Reaches.run {α : Type} {scan : Scan α} {a : α} (h : Reaches source scan s a stop after) :
    ∃ t, scan s = .ok a t ∧ t.At source stop after := by
  unfold Reaches Ends at h
  cases hrun : scan s with
  | ok b t =>
    rw [hrun] at h
    obtain ⟨rfl, ht⟩ := h
    exact ⟨t, rfl, ht⟩
  | error e t =>
    rw [hrun] at h
    exact h.elim

def Loops (source : List UInt8) (more : Scanner → Bool) (read : Scan Node) (pos : Nat)
    (before : State) (nodes : List Node) (stop : Nat) (after : State) : Prop :=
  ∀ s budget latest, s.At source pos before → s.rest.length ≤ budget.length →
    ∃ t left, t.At source stop after ∧ t.rest.length ≤ left.length ∧
      manyWithin more read budget latest s = manyWithin more read left (nodes.reverse ++ latest) t

theorem loops_nil : Loops source more read pos state [] pos state := by
  intro s budget latest hs hb
  exact ⟨s, budget, hs, hb, rfl⟩

theorem Loops.snoc {nodes : List Node} {node : Node} {middle : Nat}
    (h : Loops source more read pos before nodes middle state) (hlt : middle < stop)
    (hm : ∀ t, t.At source middle state → more t = true)
    (hr : ∀ t, t.At source middle state → Reaches source read t node stop after) :
    Loops source more read pos before (nodes ++ [node]) stop after := by
  intro s budget latest hs hb
  obtain ⟨t, left, ht, hl, heq⟩ := h s budget latest hs hb
  obtain ⟨u, hrun, hu⟩ := (hr t ht).run
  have hshort := ht.fits.length_lt hu.fits (by rw [ht.pos, hu.pos]; exact hlt)
  cases left with
  | nil =>
    rw [List.length_nil] at hl
    omega
  | cons b left =>
    refine ⟨u, left, hu, ?_, ?_⟩
    · rw [List.length_cons] at hl
      omega
    · rw [heq, manyWithin_more (hm t ht) hrun]
      simp

theorem Loops.reaches {nodes : List Node} (h : Loops source more read pos before nodes stop after)
    (hs : s.At source pos before) (hm : ∀ t, t.At source stop after → more t = false) :
    Reaches source (many more read) s nodes stop after := by
  obtain ⟨t, left, ht, _, heq⟩ := h s s.rest [] hs (Nat.le_refl _)
  have hrun : many more read s = .ok nodes t := by
    change manyWithin more read s.rest [] s = _
    rw [heq, manyWithin_over (hm t ht)]
    simp
  unfold Reaches Ends
  rw [hrun]
  exact ⟨rfl, ht⟩

section Rules

variable {α β : Type} {middle : Nat} {kind : Kind}

theorem reaches_get {next : Scanner → Scan α} {a : α} :
    Reaches source (get >>= next) s a stop after ↔ Reaches source (next s) s a stop after := Iff.rfl

theorem reaches_pure (hs : s.At source pos state) (a : α) :
    Reaches source (pure a) s a pos state := ⟨rfl, hs⟩

theorem Reaches.bind {scan : Scan α} {next : α → Scan β} {a : α} {b : β}
    (h : Reaches source scan s a middle state)
    (k : ∀ t, t.At source middle state → Reaches source (next a) t b stop after) :
    Reaches source (scan >>= next) s b stop after := by
  rw [Reaches, ends_bind]
  refine h.imp ?_
  rintro _ t ⟨rfl, ht⟩
  exact k t ht

theorem reaches_enter (hs : s.At source pos before) (state : State) :
    Reaches source (enter state) s () pos state := ⟨rfl, hs.enter state⟩

theorem reaches_last (hs : s.At source pos before) (state : State) (node : Node) :
    Reaches source (do enter state; return node) s node pos state :=
  (reaches_enter hs state).bind fun _ ht => reaches_pure ht node

theorem Reaches.leaf {scan : Scan Leaf} {leaf : Leaf} (h : Reaches source scan s leaf stop after) :
    Reaches source (do return Node.leaf (← scan)) s (.leaf leaf) stop after :=
  h.bind fun _ ht => reaches_pure ht _

theorem reaches_take {bytes : List UInt8} {size : Nat} (hs : s.At source pos state)
    (hd : source.drop pos = bytes) (h : size ≤ bytes.length) :
    Reaches source (take size kind) s ⟨kind, bytes.take size, pos⟩ (pos + size) state := by
  subst hd
  rw [← hs.rest] at h ⊢
  rw [Reaches, ends_take]
  exact ⟨by rw [hs.pos], hs.skip h⟩

theorem reaches_takeWhile {bytes : List UInt8} {accept : UInt8 → Bool} (hs : s.At source pos state)
    (hd : source.drop pos = bytes) (h : 0 < (bytes.takeWhile accept).length) :
    Reaches source (takeWhile accept kind) s
      ⟨kind, bytes.take (bytes.takeWhile accept).length, pos⟩
      (pos + (bytes.takeWhile accept).length) state := by
  subst hd
  rw [← hs.rest] at h ⊢
  rw [Reaches, ends_takeWhile h]
  exact ⟨by rw [hs.pos], hs.skip (List.takeWhile_prefix accept).length_le⟩

theorem reaches_operator {bytes : List UInt8} (hs : s.At source pos state)
    (hd : source.drop pos = bytes) (h : Lexeme.operator bytes ≤ bytes.length) :
    Reaches source operator s ⟨.operator, bytes.take (Lexeme.operator bytes), pos⟩
      (pos + Lexeme.operator bytes) state := by
  rw [operator, reaches_get, hs.rest, hd]
  exact reaches_take hs hd h

end Rules

end Scan

theorem role_of_isNameByte {b : UInt8} (h : isNameByte b) : role b = .plain := by
  unfold role
  split <;> first | rfl | exact absurd h (by decide)

theorem not_isDigit_of_isNameStart {b : UInt8} (h : isNameStart b) : isDigit b = false := by
  simp only [isNameStart, isLetter, isDigit, Bool.or_eq_true, Bool.and_eq_true, decide_eq_true_eq,
    beq_iff_eq, Bool.and_eq_false_iff, decide_eq_false_iff_not, UInt8.le_iff_toNat_le] at h ⊢
  rcases h with (h | h) | rfl
  · right
    simp at h ⊢
    omega
  · right
    simp at h ⊢
    omega
  · decide

theorem Lexeme.not_isNameByte_of_arithmeticOperator? {b : UInt8} {bytes : List UInt8} {size : Nat}
    (h : arithmeticOperator? (b :: bytes) = some size) : isNameByte b = false := by
  obtain ⟨word, hw, rfl⟩ := Option.map_eq_some_iff.mp h
  have hm : word ∈ arithmeticOperators := List.mem_of_find?_eq_some hw
  have hp : word <+: b :: bytes := by simpa [first?] using List.find?_some hw
  have hno : ∀ word ∈ arithmeticOperators, word.head?.map isNameByte = some false := by decide
  have hfirst := hno word hm
  cases word with
  | nil => exact absurd hm (by decide)
  | cons c word =>
    obtain ⟨rest, hr⟩ := hp
    obtain rfl : c = b := (List.cons.inj hr).1
    exact Option.some.inj hfirst

namespace Scan

section Lexemes

variable {source : List UInt8} {inner : Inner} {s : Scanner} {pos stop : Nat}
  {before after state : State} {b : UInt8} {bytes : List UInt8} {kind : Kind} {size : Nat}
  {node : Node}

theorem role?_at {r : Role} (hs : s.At source pos state) (hd : source.drop pos = b :: bytes)
    (hb : role b = r) : s.role? = some r :=
  Scanner.role?_eq (hs.rest.trans hd) hb

theorem escape_reaches (hs : s.At source pos state) (hd : source.drop pos = b :: bytes) :
    Reaches source escape s
      (.leaf ⟨.escaped, (b :: bytes).take (Lexeme.escape (b :: bytes)), pos⟩)
      (pos + Lexeme.escape (b :: bytes)) state := by
  rw [escape, reaches_get, hs.rest, hd]
  exact (reaches_take hs hd Lexeme.escape_bounds.2).leaf

theorem part_lexeme (h : Lexes .part bytes kind size) (hs : s.At source pos state)
    (hd : source.drop pos = bytes) :
    Reaches source (wordPart inner) s (.leaf ⟨kind, bytes.take size, pos⟩) (pos + size) state := by
  have hsize := h.bounds
  rw [wordPart, reaches_get]
  cases h with
  | escape _ hb =>
    rw [role?_at hs hd hb]
    exact escape_reaches hs hd
  | mark hb =>
    rw [role?_at hs hd hb]
    exact (reaches_take hs hd hsize.2).leaf
  | plain hb =>
    rw [role?_at hs hd (by simpa [isPlain] using hb)]
    exact (reaches_takeWhile hs hd hsize.1).leaf

theorem quoted_lexeme (h : Lexes (.element .quotes before after) bytes kind size)
    (hs : s.At source pos state) (hd : source.drop pos = bytes) :
    Reaches source (quotedPart inner) s (.leaf ⟨kind, bytes.take size, pos⟩) (pos + size)
      state := by
  have hsize := h.bounds
  rw [quotedPart, reaches_get]
  cases h with
  | blanks hf => exact absurd rfl hf
  | escape _ hb =>
    rw [role?_at hs hd hb]
    exact escape_reaches hs hd
  | @quoted _ b bytes hb =>
    rw [role?_at hs hd rfl]
    cases hrole : role b with
    | backslash | dollar => simp [isQuotable, hrole] at hb
    | _ => exact (reaches_takeWhile hs hd hsize.1).leaf

theorem reference_lexeme (h : Lexes .reference bytes kind size) (hs : s.At source pos state)
    (hd : source.drop pos = bytes) :
    Reaches source (reference inner) s (.leaf ⟨kind, bytes.take size, pos⟩) (pos + size)
      state := by
  have hsize := h.bounds
  cases h with
  | escape hg => exact hg.elim
  | dollar hb hp hu =>
    have hq : ¬ ascii "$((" <+: _ :: _ := fun h => hp (prefix_of_expansion h)
    rw [Reaches, ends_reference (role?_at hs hd hb), hs.rest, hd, if_neg hq, if_neg hp, if_neg hu,
      hs.pos]
    exact ⟨rfl, hs.skip (by rw [hs.rest, hd]; exact hsize.2)⟩

/-- What arithmetic does at a byte whose role does not say it. -/
theorem reaches_arithmeticPart (hs : s.At source pos state) (hd : source.drop pos = b :: bytes)
    (hb : (role b).leadsArithmetic = false) :
    Reaches source (arithmeticPart inner) s node stop after ↔
      Reaches source (if isDigit b then
          do return .leaf (← take (Lexeme.number (b :: bytes)) .variable)
        else if isNameStart b then do return .leaf (← takeWhile isNameByte .variable)
        else match Lexeme.arithmeticOperator? (b :: bytes) with
          | some size => do return .leaf (← take size .term)
          | none => do return .leaf (← take 1 .unknown)) s node stop after := by
  simp only [arithmeticPart, reaches_get, hs.rest, hd]
  cases hrole : role b with
  | blank | newline | backslash | dollar | openParen | closeParen =>
    simp [hrole, Role.leadsArithmetic] at hb
  | _ => rfl

theorem arithmetic_lexeme (h : Lexes (.element .arithmetic before after) bytes kind size)
    (hs : s.At source pos state) (hd : source.drop pos = bytes) :
    Reaches source (arithmeticPart inner) s (.leaf ⟨kind, bytes.take size, pos⟩) (pos + size)
      state := by
  have hsize := h.bounds
  cases h with
  | blanks _ hb =>
    simp only [arithmeticPart, reaches_get, hs.rest, hd, hb]
    exact (reaches_takeWhile hs hd hsize.1).leaf
  | escape _ hb =>
    simp only [arithmeticPart, reaches_get, hs.rest, hd, hb]
    exact escape_reaches hs hd
  | arithmeticNewline hb =>
    simp only [arithmeticPart, reaches_get, hs.rest, hd, hb]
    exact (reaches_take hs hd hsize.2).leaf
  | @number _ b bytes hb =>
    have hplain : role b = .plain := role_of_isNameByte (by simp [isNameByte, hb])
    rw [reaches_arithmeticPart hs hd (by rw [hplain]; rfl), if_pos hb]
    exact (reaches_take hs hd hsize.2).leaf
  | @name _ b bytes hb =>
    have hplain : role b = .plain := role_of_isNameByte (by simp [isNameByte, hb])
    have hdigit := not_isDigit_of_isNameStart hb
    rw [reaches_arithmeticPart hs hd (by rw [hplain]; rfl), if_neg (by simp [hdigit]), if_pos hb]
    exact (reaches_takeWhile hs hd hsize.1).leaf
  | @arithmeticOperator _ b bytes size hb ho =>
    have hno := Lexeme.not_isNameByte_of_arithmeticOperator? ho
    simp only [isNameByte, Bool.or_eq_false_iff] at hno
    rw [reaches_arithmeticPart hs hd hb, if_neg (by simp [hno]), if_neg (by simp [hno]), ho]
    exact (reaches_take hs hd hsize.2).leaf
  | @unknown _ b bytes hb hdigit hname ho =>
    rw [reaches_arithmeticPart hs hd hb, if_neg (by simp [hdigit]), if_neg (by simp [hname]), ho]
    exact (reaches_take hs hd hsize.2).leaf

/-- What a script does at a byte that is no layout. -/
theorem reaches_scriptPart (hs : s.At source pos state) (hd : source.drop pos = b :: bytes)
    (hb : role b ∉ [Role.blank, .hash, .newline]) :
    Reaches source (scriptPart inner) s node stop after ↔
      Reaches source
        (match state with
        | .normal | .command => commandPart inner (role b)
        | .caseSubject => caseSubject inner b
        | .caseIn => caseIn b
        | .casePattern => casePart inner b) s node stop after := by
  simp only [scriptPart, reaches_get, hs.rest, hd, hs.state]
  cases hrole : role b with
  | blank | hash | newline => simp [hrole] at hb
  | _ => rfl

theorem separator_reaches (inner : Inner) (hs : s.At source pos state)
    (hd : source.drop pos = b :: bytes)
    (hb : role b = .separator ∨ role b = .openParen ∨ role b = .closeParen) :
    Reaches source (commandPart inner (role b)) s
      (.leaf ⟨.operator, (b :: bytes).take (Lexeme.operator (b :: bytes)), pos⟩)
      (pos + Lexeme.operator (b :: bytes))
      (if (b :: bytes).take (Lexeme.operator (b :: bytes)) = ascii ";;" then .casePattern
        else .normal) := by
  have read : Reaches source (do
        Scan.enter .normal
        let leaf ← operator
        if leaf.data = ascii ";;" then Scan.enter .casePattern
        return Node.leaf leaf) s
      (.leaf ⟨.operator, (b :: bytes).take (Lexeme.operator (b :: bytes)), pos⟩)
      (pos + Lexeme.operator (b :: bytes))
      (if (b :: bytes).take (Lexeme.operator (b :: bytes)) = ascii ";;" then .casePattern
        else .normal) := by
    refine (reaches_enter hs .normal).bind fun t ht => ?_
    refine (reaches_operator ht hd Lexeme.operator_bounds.2).bind fun u hu => ?_
    dsimp only
    split
    · exact reaches_last hu .casePattern _
    · exact reaches_pure hu _
  rcases hb with hb | hb | hb <;> rw [hb] <;> exact read

theorem script_lexeme (h : Lexes (.element .substitution before after) bytes kind size)
    (hs : s.At source pos before) (hd : source.drop pos = bytes) :
    Reaches source (scriptPart inner) s (.leaf ⟨kind, bytes.take size, pos⟩) (pos + size)
      after := by
  have hsize := h.bounds
  cases h with
  | blanks _ hb =>
    simp only [scriptPart, reaches_get, hs.rest, hd, hb]
    exact (reaches_takeWhile hs hd hsize.1).leaf
  | comment hb =>
    simp only [scriptPart, reaches_get, hs.rest, hd, hb]
    exact (reaches_takeWhile hs hd hsize.1).leaf
  | newline hb =>
    simp only [scriptPart, reaches_get, hs.rest, hd, hb, hs.state]
    split
    · exact (reaches_enter hs .normal).bind fun t ht => (reaches_take ht hd hsize.2).leaf
    · exact (reaches_take hs hd hsize.2).leaf
  | separator hc hb =>
    rw [reaches_scriptPart hs hd (by rcases hb with hb | hb | hb <;> simp [hb])]
    have read := separator_reaches inner hs hd hb
    cases before with
    | normal | command => exact read
    | caseSubject | caseIn | casePattern => exact absurd hc (by decide)
  | redirection hc hb =>
    rw [reaches_scriptPart hs hd (by simp [hb])]
    have read : Reaches source (commandPart inner .redirection) s
        (.leaf ⟨.operator, _, pos⟩) _ .command :=
      (reaches_enter hs .command).bind fun t ht => (reaches_operator ht hd hsize.2).leaf
    rw [← hb] at read
    cases before with
    | normal | command => exact read
    | caseSubject | caseIn | casePattern => exact absurd hc (by decide)
  | @caseIn b bytes hb hw =>
    have hp : role b = .plain := by simpa [isPlain] using hb
    rw [reaches_scriptPart hs hd (by simp [hp])]
    have htake := (Lexeme.take_run isPlain (b :: bytes)).trans hw
    simp only [caseIn, hb, Bool.not_true, Bool.false_eq_true, if_false, reaches_get]
    refine (reaches_takeWhile hs hd hsize.1).bind fun t ht => ?_
    rw [if_pos htake]
    exact reaches_last ht .casePattern _
  | openPattern hb =>
    rw [reaches_scriptPart hs hd (by simp [hb])]
    simp only [casePart, hb]
    exact (reaches_take hs hd hsize.2).leaf
  | closePattern hb =>
    rw [reaches_scriptPart hs hd (by simp [hb])]
    simp only [casePart, hb]
    exact (reaches_take hs hd hsize.2).bind fun t ht => reaches_last ht .normal _
  | escape hg => exact hg.elim

end Lexemes

section Words

variable {source : List UInt8} {inner : Inner} {s : Scanner} {pos stop : Nat}
  {before after state : State} {b : UInt8} {bytes : List UInt8} {nodes : List Node} {node : Node}

theorem word_reaches (h : Loops source inWord (wordPart inner) pos state nodes stop state)
    (hne : nodes ≠ []) (hstop : inWord (.bare source stop .normal) = false)
    (hs : s.At source pos state) : Reaches source (word inner) s nodes stop state := by
  have ended (t : Scanner) (ht : t.At source stop state) : inWord t = false := by
    rw [← inWord_bare ht.fits .normal, ht.pos]
    exact hstop
  refine (h.reaches hs ended).bind fun t ht => ?_
  cases nodes with
  | nil => exact absurd rfl hne
  | cons => exact reaches_pure ht _

/-- What a script does at the beginning of a word. -/
theorem script_word (hs : s.At source pos state) (hd : source.drop pos = b :: bytes)
    (hb : (role b).endsWord = false) :
    Reaches source (scriptPart inner) s node stop after ↔
      Reaches source
        (match state with
        | .normal | .command => commandWord inner
        | .caseSubject => do
          let nodes ← word inner
          enter .caseIn
          return .word nodes
        | .caseIn => caseIn b
        | .casePattern => do
          let nodes ← word inner
          match (Node.onlyLeaf? .term nodes).filter (·.data = ascii "esac") with
          | some leaf =>
            enter .normal
            return .leaf { leaf with kind := .keyword }
          | none => return .word nodes) s node stop after := by
  have pattern : casePart inner b = (do
      let nodes ← word inner
      match (Node.onlyLeaf? .term nodes).filter (·.data = ascii "esac") with
      | some leaf =>
        enter .normal
        return .leaf { leaf with kind := .keyword }
      | none => return .word nodes) := by
    unfold casePart
    cases hrole : role b with
    | mark | backslash | quote | dollar | plain => rfl
    | _ => simp [hrole, Role.endsWord] at hb
  cases hrole : role b with
  | mark | backslash | quote | dollar | plain =>
    rw [reaches_scriptPart hs hd (by simp [hrole]), hrole]
    cases state with
    | caseSubject => simp only [caseSubject, hrole]
    | casePattern => exact iff_of_eq (congrArg (Reaches source · s node stop after) pattern)
    | normal | command | caseIn => rfl
  | _ => simp [hrole, Role.endsWord] at hb

theorem command_reaches (hr : state = .normal → reserved? nodes = none)
    (hs : s.At source pos state) (hw : Reaches source (word inner) s nodes stop state) :
    Reaches source (commandWord inner) s (.word nodes) stop .command := by
  rw [commandWord, reaches_get, hs.state]
  refine hw.bind fun t ht => ?_
  have hnone : (if state = .normal then reserved? nodes else none) = none := by
    split
    · rename_i hn
      exact hr hn
    · rfl
  rw [hnone]
  exact reaches_last ht .command _

theorem reserved_reaches {leaf : Leaf} {next : State} (hr : reserved? nodes = some (leaf, next))
    (hs : s.At source pos .normal) (hw : Reaches source (word inner) s nodes stop .normal) :
    Reaches source (commandWord inner) s (.leaf leaf) stop next := by
  rw [commandWord, reaches_get, hs.state]
  refine hw.bind fun t ht => ?_
  rw [if_pos rfl, hr]
  exact reaches_last ht next _

end Words

section Constructs

variable {source : List UInt8} {inner : Inner} {s : Scanner} {pos stop : Nat}
  {before after state : State} {nodes : List Node} {node : Node} {d : Delimiter}

theorem reaches_opened (hs : s.At source pos state) (h : d.opening <+: source.drop pos) :
    Reaches source (opened d) s ⟨.quote, (source.drop pos).take d.opening.length, pos⟩
      (pos + d.opening.length) state := by
  rw [← hs.rest] at h
  rw [Reaches, ends_opened_of_prefix h, hs.rest, hs.pos]
  exact ⟨rfl, hs.skip h.length_le⟩

theorem reaches_closed {start : Nat} (hs : s.At source pos state)
    (h : d.closing <+: source.drop pos) :
    Reaches source (closed d start) s ⟨.quote, (source.drop pos).take d.closing.length, pos⟩
      (pos + d.closing.length) state := by
  rw [← hs.rest] at h
  rw [Reaches, ends_closed, if_pos h, hs.rest, hs.pos]
  exact ⟨rfl, hs.skip h.length_le⟩

theorem enclosure_reaches {read : Enclosure → Scan Node} (ho : d.opening <+: source.drop pos)
    (hb : ∀ t, t.At source (pos + d.opening.length) state →
      Reaches source (d.inBody (many d.goesOn (read d.form))) t nodes stop state)
    (hc : d.closing <+: source.drop stop) (hs : s.At source pos state) :
    Reaches source (enclosure (some read) d) s
      (.enclosed d.form ⟨.quote, (source.drop pos).take d.opening.length, pos⟩ nodes
        ⟨.quote, (source.drop stop).take d.closing.length, stop⟩)
      (stop + d.closing.length) state := by
  rw [enclosure, reaches_get]
  refine (reaches_opened hs ho).bind fun t ht => ?_
  refine (hb t ht).bind fun u hu => ?_
  exact (reaches_closed hu hc).bind fun v hv => reaches_pure hv _

theorem reaches_within {α : Type} {scan : Scan α} {a : α} (hs : s.At source pos state)
    (h : ∀ t, t.At source pos before → Reaches source scan t a stop after) :
    Reaches source (within before scan) s a stop state := by
  rw [Reaches, ends_within]
  refine (h _ (hs.enter before)).imp ?_
  rintro _ t ⟨rfl, ht⟩
  rw [hs.state]
  exact ⟨rfl, ht.enter state⟩

/-- Arithmetic that is read is the expansion. -/
theorem expansion_reaches (hs : s.At source pos state)
    (h : ∀ t, t.At source pos state →
      Reaches source (enclosure inner .arithmetic) t node stop after) :
    Reaches source (expansion inner) s node stop after := by
  have read := h _ (hs.note (.attempt s.pos))
  unfold Reaches Ends at read ⊢
  rw [expansion_afresh hs.fits.outcome?_eq_none, attempt]
  cases hrun : enclosure inner .arithmetic (s.note (.attempt s.pos)) with
  | ok found t =>
    rw [hrun] at read
    dsimp only
    rw [read.2.fits.record_eq]
    exact read
  | error e t =>
    rw [hrun] at read
    exact read.elim

/-- Where arithmetic fails, the expansion is the command substitution. -/
theorem retry_reaches (hs : s.At source pos state)
    (hd : ∀ t, t.At source pos state → Ends (enclosure inner .arithmetic) t (fun _ _ => False)
      fun e u => e.isTooDeep = false ∧ u.Fits source False ∧ u.state = t.state)
    (h : ∀ t, t.At source pos state →
      Reaches source (enclosure inner .commandSubstitution) t node stop after) :
    Reaches source (expansion inner) s node stop after := by
  have denied := hd _ (hs.note (.attempt s.pos))
  unfold Reaches Ends at h ⊢
  unfold Ends at denied
  rw [expansion_afresh hs.fits.outcome?_eq_none, attempt]
  cases hrun : enclosure inner .arithmetic (s.note (.attempt s.pos)) with
  | ok found t =>
    rw [hrun] at denied
    exact denied.elim
  | error e t =>
    rw [hrun] at denied
    obtain ⟨he, ht, hst⟩ := denied
    have back : Scanner.At source pos state
        { t.note (.retry s.pos e) with rest := s.rest, pos := s.pos } :=
      ⟨hs.fits.rewind (ht.note _), hs.pos, hst.trans hs.state⟩
    have read := h _ back
    simp only [he, Bool.false_eq_true, if_false]
    generalize enclosure inner .commandSubstitution _ = r at read ⊢
    cases r with
    | ok found u =>
      dsimp only
      rw [read.2.fits.record_eq]
      exact read
    | error e u => exact read.elim

end Constructs

end Scan

end ShellLex
