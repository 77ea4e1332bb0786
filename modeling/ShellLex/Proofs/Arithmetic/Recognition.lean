import ShellLex.Proofs.Arithmetic.Elements
import ShellLex.Proofs.Passage
/-!
Which `$((` are arithmetic. Where nothing is expanded or protected, counting parentheses decides
between the two readings of a `$((` at the start of a command; whether the word around arithmetic
can be read is then up to the double quotes behind it.
-/
namespace ShellLex

open Balance

/-- Counting finds no `))` at the end of the arithmetic. -/
def Balance.Decision.Refuses : Decision → Prop
  | .deep _ => False
  | .closed _ after => after.head? ≠ some 0x29
  | .unclosed => True

def Delimiter.Constructs (d : Delimiter) (source : List UInt8) (start stop : Nat)
    (node : Node) : Prop :=
  (∃ opening nodes closing, node = .enclosed d.form opening nodes closing) ∧
    node.Spans source start stop

theorem Reads.constructed {source : List UInt8} {recalls : Prop} {levels pos stop : Nat}
    {d : Delimiter} {node : Node}
    (h : Reads source recalls levels (.construct d) pos [node] stop) :
    d.Constructs source pos stop node := by
  refine ⟨?_, Node.spansAll_singleton.mp h.spans⟩
  cases h with
  | construct => exact ⟨_, _, _, rfl⟩
  | lexeme h => exact h.lexical.elim
  | refer hg => exact hg.elim

/-- No leaf between double quotes has one in it. -/
theorem Lexes.quoteless {before after : State} {bytes : List UInt8} {kind : Kind} {size : Nat}
    (h : Lexes (.element .quotes before after) bytes kind size) (hl : Literal bytes) :
    0x22 ∉ bytes.take size := by
  cases h with
  | blanks hf => exact absurd rfl hf
  | escape _ hb => exact absurd hb hl.role.2
  | quoted =>
    rw [Lexeme.take_run]
    intro hm
    exact absurd (List.mem_takeWhile_imp hm) (by decide)

/-- No leaf of a word has anything in it that ends the word or begins a string. -/
theorem Lexes.goesOn {bytes : List UInt8} {kind : Kind} {size : Nat}
    (h : Lexes .part bytes kind size) (hl : Literal bytes) :
    ∀ c ∈ bytes.take size, c ≠ 0x22 ∧ (role c).endsWord = false := by
  have apart {c : UInt8} (hc : role c ∈ [.mark, .plain]) :
      c ≠ 0x22 ∧ (role c).endsWord = false := by
    refine ⟨?_, ?_⟩
    · rintro rfl
      exact absurd hc (by decide)
    · have roles : ∀ r ∈ [Role.mark, .plain], r.endsWord = false := by decide
      exact roles _ hc
  cases h with
  | escape _ hb => exact absurd hb hl.role.2
  | mark hb =>
    intro c hm
    obtain rfl := List.mem_singleton.mp hm
    exact apart (by simp [hb])
  | plain =>
    rw [Lexeme.take_run]
    intro c hm
    have plain : role c = .plain := by simpa [isPlain] using List.mem_takeWhile_imp hm
    exact apart (by simp [plain])

theorem Scanner.journal_subset_enter (s : Scanner) (state : State) :
    s.journal ⊆ (s.enter state).journal := by
  unfold enter
  split
  · exact List.Subset.refl _
  · exact List.subset_cons_self _ _

def logging : Passage where
  Passes _ s _ t := s.journal ⊆ t.journal
  Fails s t := s.journal ⊆ t.journal
  Denied _ _ _ := True
  nil {_ s} := List.Subset.refl s.journal
  append h k := List.Subset.trans h k
  enter {_ s} state := s.journal_subset_enter state
  attempted hm := List.mem_cons_of_mem _ hm
  take {_ s} _ _ := List.Subset.refl s.journal
  rekind _ h := h
  ofWord h := h
  enclosed _ _ _ h _ := h
  retried _ hf _ h _ := List.Subset.trans hf (List.Subset.trans (List.subset_cons_self _ _) h)
  retry_fails hf h := List.Subset.trans hf (List.Subset.trans (List.subset_cons_self _ _) h)
  recalled {_ s} _ _ _ _ := List.Subset.refl s.journal
  recalled_fails {s} _ _ := List.Subset.refl s.journal
  kept _ _ h := h
  kept_fails _ h := h
  fail {s} := List.Subset.refl s.journal
  left {_ t} state h := List.Subset.trans h (t.journal_subset_enter state)
  fails h k := List.Subset.trans h k

namespace Scan

variable {source : List UInt8} {recalls : Prop} {levels : Nat} {s t : Scanner} {inner : Inner}

section Words

structure SameQuote (quote : Option Nat) (s t : Scanner) : Prop where
  literal : Literal t.rest
  open_eq : openQuote? quote t.pos t.rest = openQuote? quote s.pos s.rest

theorem SameQuote.trans {quote : Option Nat} {u : Scanner} (h : SameQuote quote s t)
    (k : SameQuote quote t u) : SameQuote quote s u :=
  ⟨k.literal, k.open_eq.trans h.open_eq⟩

def Unclosed (s : Scanner) (e : LexError) : Prop :=
  openQuote? none s.pos s.rest = some e.pos ∧ e.cause = .unterminated .doubleQuote

theorem sameQuote_skip {goal : Goal} {kind : Kind} {quote : Option Nat} {size : Nat}
    (hl : Literal s.rest) (hs : Lexes goal s.rest kind size)
    (h : openQuote? quote s.pos (s.rest.take size ++ s.rest.drop size) =
      openQuote? quote (s.pos + (s.rest.take size).length) (s.rest.drop size)) :
    SameQuote quote s (s.skip size) :=
  ⟨hl.drop size, eq_skip (openQuote? quote) hs.bounds.2 h⟩

theorem quotedPart_literal (start : Nat) (hl : Literal s.rest)
    (hq : Enclosure.quotes.Ready s) :
    Ends (quotedPart inner) s (fun _ t => SameQuote (some start) s t) fun _ _ => False := by
  obtain ⟨r, hrole, hne⟩ := hq
  obtain ⟨b, bytes, hr, rfl⟩ := Scanner.role?_eq_some hrole
  apply quotedPart_rule hr hne
  · intro kind size h
    exact sameQuote_skip hl h (openQuote?_quoted (h.quoteless hl))
  · intro hb
    exact absurd hb (hr ▸ hl).role.1

theorem quotes_literal {bytes : List UInt8} (hs : s.Fits source recalls) (hl : Literal s.rest)
    (hr : s.rest = 0x22 :: bytes) :
    Ends (enclosure (deeper (levels + 1)) .doubleQuote) s (fun _ t => SameQuote none s t)
      fun e _ => Unclosed s e := by
  have ho : Delimiter.doubleQuote.opening <+: s.rest := by
    rw [hr]
    exact ⟨bytes, rfl⟩
  have one : Delimiter.doubleQuote.opening.length = 1 := rfl
  have opened : openQuote? (some s.pos) (s.skip 1).pos (s.skip 1).rest =
      openQuote? none s.pos s.rest := by
    rw [Scanner.skip_pos (by simp [hr]), Scanner.skip_rest, hr]
    rfl
  let inv (_ : List Node) (t : Scanner) : Prop := SameQuote (some s.pos) (s.skip 1) t
  have start : inv [] (s.skip 1) := ⟨hl.drop 1, rfl⟩
  have body : Ends (many Delimiter.doubleQuote.goesOn (quotedPart (deeper levels))) (s.skip 1)
      (fun nodes t => t.Fits source recalls ∧ (s.skip 1).pos ≤ t.pos ∧
        Delimiter.doubleQuote.goesOn t = false ∧ inv nodes t) fun _ _ => False := by
    refine many_ends (hs.skip 1) start ?_ ?_
    · intro t hm hn
      simp [Delimiter.goesOn, Scanner.role?, hn] at hm
    · intro nodes t ht _ same hm
      have ready : Enclosure.quotes.Ready t := ready_of_goesOn hm
      have read := quotedPart_ends (deeper_obeys source recalls levels) ht ready
      refine (read.and (quotedPart_literal s.pos same.literal ready)).mono ?_ fun _ _ h => h.2
      rintro node u ⟨hu, next⟩
      exact ⟨hu.fits, hu.reads.lt_of_singleton, same.trans next⟩
  simp only [enclosure, deeper, ends_bind, ends_get, ends_opened_of_prefix ho, one,
    Delimiter.inBody]
  refine body.mono ?_ fun _ _ h => h.elim
  rintro nodes t ⟨ht, _, hm, same⟩
  have ahead := same.open_eq.trans opened
  cases hn : t.rest with
  | nil =>
    rw [hn] at ahead
    rw [ends_closed_of_body fun _ => Or.inr hn, hn, if_neg (by decide)]
    exact ⟨ahead.symm, rfl⟩
  | cons b rest =>
    have hb : role b = .quote := by simpa [Delimiter.goesOn, Scanner.role?_cons hn] using hm
    obtain rfl := eq_of_role.1 hb
    have closes : Delimiter.doubleQuote.closing <+: t.rest := by
      rw [hn]
      exact ⟨rest, rfl⟩
    rw [hn] at ahead
    rw [ends_closed, if_pos closes]
    refine ⟨same.literal.drop 1, ?_⟩
    rw [← ahead, Scanner.skip_pos closes.length_le, Scanner.skip_rest, hn]
    rfl

theorem wordPart_literal (hs : s.Fits source recalls) (hl : Literal s.rest)
    (hw : inWord s = true) :
    Ends (wordPart (deeper (levels + 1))) s (fun _ t => SameQuote none s t)
      fun e _ => Unclosed s e := by
  obtain ⟨b, bytes, hr, hends⟩ := inWord_cases hw
  apply wordPart_rule hr hends
  · intro kind size h
    exact sameQuote_skip hl h (openQuote?_append (h.goesOn hl))
  · intro hb
    obtain rfl := eq_of_role.1 hb
    exact quotes_literal hs hl hr
  · intro hb
    exact absurd hb (hr ▸ hl).role.1

theorem openQuote?_over (h : inWord s = false) : openQuote? none s.pos s.rest = none := by
  cases hr : s.rest with
  | nil => rfl
  | cons b bytes =>
    have hb : (role b).endsWord = true := by simpa [inWord, Scanner.role?_cons hr] using h
    have hq : b ≠ 0x22 := by
      rintro rfl
      exact absurd hb (by decide)
    rw [openQuote?, if_neg hq, if_pos hb]

/-- What holds of the first part of a word and is kept by the others holds at its end. -/
theorem word_of_first {inv : Node → Scanner → Prop} {bad : LexError → Scanner → Prop}
    (hs : s.Fits source recalls) (hw : inWord s = true)
    (first : Ends (wordPart (deeper levels)) s inv bad)
    (next : ∀ node t, t.Fits source recalls → inWord t = true → inv node t →
      Ends (wordPart (deeper levels)) t (fun _ u => inv node u) bad) :
    Ends (word (deeper levels)) s
      (fun nodes t => inWord t = false ∧ ∃ node parts, nodes = node :: parts ∧ inv node t) bad := by
  let inv' (nodes : List Node) (t : Scanner) : Prop :=
    nodes = [] ∧ t = s ∨ ∃ node parts, nodes = node :: parts ∧ inv node t
  have start : inv' [] s := Or.inl ⟨rfl, rfl⟩
  simp only [word, ends_bind]
  refine (many_ends hs start ?_ ?_).imp ?_
  · intro t hm hr
    simp [inWord, Scanner.role?, hr] at hm
  · intro nodes t ht _ hi hm
    have read := wordPart_ends (deeper_obeys source recalls levels) ht hm
    rcases hi with ⟨rfl, rfl⟩ | ⟨node, parts, rfl, hi⟩
    · refine (read.and first).mono ?_ fun _ _ h => h.2
      rintro node u ⟨hu, hi⟩
      exact ⟨hu.fits, hu.reads.lt_of_singleton, Or.inr ⟨node, [], rfl, hi⟩⟩
    · refine (read.and (next node t ht hm hi)).mono ?_ fun _ _ h => h.2
      rintro part u ⟨hu, hi⟩
      exact ⟨hu.fits, hu.reads.lt_of_singleton, Or.inr ⟨node, parts ++ [part], rfl, hi⟩⟩
  · rintro nodes t ⟨_, _, hm, ⟨rfl, rfl⟩ | ⟨node, parts, rfl, hi⟩⟩
    · exact absurd (hw.symm.trans hm) Bool.false_ne_true.symm
    · exact ⟨hm, node, parts, rfl, hi⟩

end Words

section Attempts

variable {ok : Node → Scanner → Prop} {bad : LexError → Scanner → Prop}

theorem enclosure_logs (levels : Nat) {d : Delimiter} (hd : d ≠ .arithmeticGroup) (s : Scanner) :
    Ends (enclosure (deeper levels) d) s (fun _ t => s.journal ⊆ t.journal)
      fun _ t => s.journal ⊆ t.journal :=
  Passage.enclosure_ends (Passage.deeper_inside (P := logging) (fun _ _ _ _ _ _ => trivial) levels)
    (fun hg => absurd hg hd) (fun _ _ _ _ _ h _ => h) fun _ h => h

theorem wordPart_logs (levels : Nat) (s : Scanner) :
    Ends (wordPart (deeper levels)) s (fun _ t => s.journal ⊆ t.journal)
      fun _ t => s.journal ⊆ t.journal :=
  Passage.wordPart_along (Passage.deeper_inside (P := logging) (fun _ _ _ _ _ _ => trivial) levels)
    (fun _ _ _ _ _ => trivial) s

/-- What is shown of an element follows from what is shown of the `$((` that it begins with. -/
theorem element_of_attempt (inv : Node → Scanner → Prop) (hs : s.Fits source recalls)
    (hstate : s.state = .normal) (hp : ascii "$((" <+: s.rest) (ho : s.outcome? = none)
    (first : Ends (attempt (deeper nestingLimit)) s
      (fun node t => inv node (t.record s.pos ⟨.ok node, t.pos⟩)) fun e t =>
        bad e (if e.isTooDeep then t else t.record s.pos ⟨.error e, t.pos⟩))
    (composite : ∀ l t, ¬ inv (.leaf l) t)
    (next : ∀ node t, t.Fits source recalls → inWord t = true → inv node t →
      Ends (wordPart (deeper nestingLimit)) t (fun _ u => inv node u) bad) :
    Ends element s (fun node t => ∃ head parts u, node = .word (head :: parts) ∧
      inWord u = false ∧ inv head u ∧ t = u.enter .command) bad := by
  obtain ⟨bytes, hr⟩ := hp
  have hcons : s.rest = 0x24 :: (ascii "((" ++ bytes) := hr.symm
  have hrole : s.role? = some .dollar := Scanner.role?_cons hcons
  have hw : inWord s = true := inWord_cons hcons rfl
  have part : Ends (wordPart (deeper nestingLimit)) s inv bad := by
    simp only [wordPart, ends_bind, ends_get, hrole]
    rwa [ends_reference hrole, if_pos ⟨bytes, hr⟩, ends_expansion ho]
  have run := word_of_first hs hw part next
  simp only [element, scriptPart, ends_bind, ends_get, hcons]
  simp only [role, hstate, commandPart, commandWord, ends_bind, ends_get]
  refine run.imp ?_
  rintro nodes t ⟨hm, node, parts, rfl, hi⟩
  -- A word that begins with a composite is not reserved: it ends as the name of a command does.
  have unreserved : reserved? (node :: parts) = none := by
    cases node with
    | leaf l => exact absurd hi (composite l t)
    | word | enclosed => cases parts <;> rfl
  simp only [unreserved]
  exact ⟨node, parts, t, rfl, hm, hi, rfl⟩

def Retries (pos : Nat) (t : Scanner) : Prop :=
  ∃ e, e.isTooDeep = false ∧ Event.retry pos e ∈ t.journal

theorem Retries.mono {pos : Nat} (h : Retries pos s) (k : s.journal ⊆ t.journal) :
    Retries pos t := by
  obtain ⟨e, he, hm⟩ := h
  exact ⟨e, he, k hm⟩

section Decisions

variable {pos : Nat} {after : List UInt8}

theorem arithmetic_sweeps (levels : Nat) (hs : s.Fits source recalls)
    (hp : ascii "$((" <+: s.rest) (hl : Literal (s.rest.drop 3)) :
    Ends (enclosure (deeper (levels + 1)) .arithmetic) (s.note (.attempt s.pos))
      (fun node t => Literal t.rest ∧
        Delimiter.arithmetic.Constructs source s.pos t.pos node ∧
        ∃ pos, bodyDecision levels .arithmetic s = .closed pos (0x29 :: t.rest) ∧ t.pos = pos + 2)
      fun e _ => (∃ pos, bodyDecision levels .arithmetic s = .deep pos ∧
          e = ⟨.tooDeep nestingLimit, pos⟩) ∨
        e.isTooDeep = false ∧ (bodyDecision levels .arithmetic s).Refuses := by
  have hnote := hs.note (.attempt s.pos)
  have swept := enclosure_sweeps (d := .arithmetic) (arithmeticPart_sweeps source recalls levels)
    rfl hnote hp hl
  have read := enclosure_ends (d := .arithmetic) (deeper_obeys source recalls (levels + 1)) hnote hp
  have same : bodyDecision levels .arithmetic (s.note (.attempt s.pos)) =
    bodyDecision levels .arithmetic s := rfl
  rw [same] at swept
  refine (swept.and read).mono ?_ ?_
  · rintro node t ⟨⟨hlt, pos, after, hv, hrest, hpos⟩, hread⟩
    obtain rfl : after = 0x29 :: t.rest := (List.cons.inj hrest).2
    exact ⟨hlt, hread.reads.constructed, pos, hv, hpos⟩
  · rintro e t ⟨blames | ⟨he, pos, after, hv, hc⟩, _⟩
    · cases hv : bodyDecision levels .arithmetic s with
      | deep pos =>
        rw [hv] at blames
        exact Or.inl ⟨pos, rfl, blames⟩
      | closed pos after =>
        rw [hv] at blames
        exact blames.elim
      | unclosed =>
        rw [hv] at blames
        exact Or.inr ⟨blames, trivial⟩
    · rw [hv]
      refine Or.inr ⟨he, fun hh => hc ?_⟩
      obtain ⟨rest, rfl⟩ := List.head?_eq_some_iff.mp hh
      exact ⟨rest, rfl⟩

theorem attempt_deep (hs : s.Fits source recalls) (hp : ascii "$((" <+: s.rest)
    (hl : Literal (s.rest.drop 3)) (hv : bodyDecision levels .arithmetic s = .deep pos) :
    Ends (attempt (deeper (levels + 1))) s (fun _ _ => False)
      fun e _ => e = ⟨.tooDeep nestingLimit, pos⟩ := by
  have run := arithmetic_sweeps levels hs hp hl
  rw [hv] at run
  rw [ends_attempt]
  refine run.mono ?_ ?_
  · rintro node t ⟨_, _, _, hc, _⟩
    nomatch hc
  · rintro e t (⟨_, heq, rfl⟩ | ⟨_, refuses⟩)
    · obtain rfl := Decision.deep.inj heq
      exact rfl
    · exact refuses.elim

theorem attempt_closed (hs : s.Fits source recalls) (hp : ascii "$((" <+: s.rest)
    (hl : Literal (s.rest.drop 3))
    (hv : bodyDecision levels .arithmetic s = .closed pos (0x29 :: after)) :
    Ends (attempt (deeper (levels + 1))) s
      (fun node t => Literal t.rest ∧ t.pos = pos + 2 ∧ t.rest = after ∧
        Delimiter.arithmetic.Constructs source s.pos t.pos node) fun _ _ => False := by
  have run := arithmetic_sweeps levels hs hp hl
  rw [hv] at run
  rw [ends_attempt]
  refine run.mono ?_ ?_
  · rintro node t ⟨hlt, constructs, _, hc, hpos⟩
    obtain ⟨rfl, hrest⟩ := Decision.closed.inj hc
    exact ⟨hlt, hpos, (List.cons.inj hrest).2.symm, constructs⟩
  · rintro e t (⟨_, heq, _⟩ | ⟨_, refuses⟩)
    · nomatch heq
    · exact absurd rfl refuses

theorem attempt_refused (hs : s.Fits source recalls) (hp : ascii "$((" <+: s.rest)
    (hl : Literal (s.rest.drop 3)) (hv : (bodyDecision levels .arithmetic s).Refuses) :
    Ends (attempt (deeper (levels + 1))) s
      (fun node t => Retries s.pos t ∧
        Delimiter.commandSubstitution.Constructs source s.pos t.pos node)
      fun _ t => Retries s.pos t := by
  have hi := deeper_obeys source recalls (levels + 1)
  have run := arithmetic_sweeps levels hs hp hl
  have read := enclosure_ends (d := .arithmetic) hi (hs.note (.attempt s.pos)) hp
  rw [ends_attempt]
  refine (run.and read).mono ?_ ?_
  · rintro node t ⟨⟨_, _, _, hc, _⟩, _⟩
    rw [hc] at hv
    exact absurd rfl hv
  · rintro e t ⟨⟨_, hc, _⟩ | ⟨he, _⟩, failing⟩
    · rw [hc] at hv
      exact hv.elim
    · have hs' : (s.again e t).Fits source recalls :=
        hs.rewind (failing.fits.note (.retry s.pos e))
      have again := enclosure_ends (d := .commandSubstitution) hi hs' (prefix_of_expansion hp)
      have retried {u : Scanner} (h : (s.again e t).journal ⊆ u.journal) : Retries s.pos u :=
        ⟨e, he, h List.mem_cons_self⟩
      have logged := enclosure_logs (d := .commandSubstitution) (levels + 1) nofun (s.again e t)
      simp only [he, Bool.false_eq_true, if_false]
      refine (again.and logged).mono ?_ ?_
      · rintro node u ⟨hu, h⟩
        exact ⟨retried h, hu.reads.constructed⟩
      · rintro f u ⟨_, h⟩
        exact retried h

end Decisions

end Attempts

section Calls

variable {x after : List UInt8} {pos : Nat}

/-- The `$((` at the start of a source, with the decision on what follows it. -/
theorem start_expansion (x : List UInt8) :
    ascii "$((" <+: (Scanner.start (ascii "$((" ++ x)).rest ∧
      (Scanner.start (ascii "$((" ++ x)).rest.drop 3 = x ∧
      ∀ levels, bodyDecision levels .arithmetic (.start (ascii "$((" ++ x)) = sweep levels 0 3 x :=
  ⟨⟨x, rfl⟩, rfl, fun _ => rfl⟩

theorem element_deep (hl : Literal x) (hv : sweep (nestingLimit - 1) 0 3 x = .deep pos) :
    Ends element (.start (ascii "$((" ++ x)) (fun _ _ => False)
      fun e _ => e = ⟨.tooDeep nestingLimit, pos⟩ := by
  obtain ⟨hp, hx, hdecision⟩ := start_expansion x
  have hs := Scanner.start_fits (ascii "$((" ++ x)
  rw [← hdecision] at hv
  refine (element_of_attempt (fun _ _ => False) hs rfl hp rfl ?_ (fun _ _ h => h) ?_).imp ?_
  · exact attempt_deep hs hp (hx ▸ hl) hv
  · exact fun _ _ _ _ h => h.elim
  · rintro node t ⟨_, _, _, _, _, h, _⟩
    exact h

theorem element_closed (hl : Literal x)
    (hv : sweep (nestingLimit - 1) 0 3 x = .closed pos (0x29 :: after)) :
    Ends element (.start (ascii "$((" ++ x))
      (fun node _ => openQuote? none (pos + 2) after = none ∧ ∃ head parts,
        node = .word (head :: parts) ∧
        Delimiter.arithmetic.Constructs (ascii "$((" ++ x) 0 (pos + 2) head)
      fun e _ => openQuote? none (pos + 2) after = some e.pos ∧
        e.cause = .unterminated .doubleQuote := by
  obtain ⟨hp, hx, hdecision⟩ := start_expansion x
  have hs := Scanner.start_fits (ascii "$((" ++ x)
  rw [← hdecision] at hv
  let inv (node : Node) (t : Scanner) : Prop := Literal t.rest ∧
    openQuote? none t.pos t.rest = openQuote? none (pos + 2) after ∧
    Delimiter.arithmetic.Constructs (ascii "$((" ++ x) 0 (pos + 2) node
  refine (element_of_attempt inv hs rfl hp rfl ?_ ?_ ?_).imp ?_
  · refine (attempt_closed hs hp (hx ▸ hl) hv).mono ?_ fun _ _ h => h.elim
    rintro node t ⟨hlt, hpos, hrest, constructs⟩
    rw [hpos] at constructs
    exact ⟨hlt, by rw [← hpos, ← hrest]; rfl, constructs⟩
  · rintro l t ⟨_, _, ⟨_, _, _, h⟩, _⟩
    nomatch h
  · rintro node t ht hw ⟨hlt, hquote, constructs⟩
    refine (wordPart_literal ht hlt hw).mono ?_ ?_
    · rintro _ u same
      exact ⟨same.literal, same.open_eq.trans hquote, constructs⟩
    · rintro e u ⟨hopen, hcause⟩
      exact ⟨hquote.symm.trans hopen, hcause⟩
  · rintro node t ⟨head, parts, u, rfl, hm, ⟨_, hquote, constructs⟩, _⟩
    refine ⟨?_, head, parts, rfl, constructs⟩
    rw [← hquote, openQuote?_over hm]

theorem element_refused (hl : Literal x) (hv : (sweep (nestingLimit - 1) 0 3 x).Refuses) :
    Ends element (.start (ascii "$((" ++ x))
      (fun node t => Retries 0 t ∧ ∃ head parts stop, node = .word (head :: parts) ∧
        Delimiter.commandSubstitution.Constructs (ascii "$((" ++ x) 0 stop head)
      fun _ t => Retries 0 t := by
  obtain ⟨hp, hx, hdecision⟩ := start_expansion x
  have hs := Scanner.start_fits (ascii "$((" ++ x)
  rw [← hdecision] at hv
  let inv (node : Node) (t : Scanner) : Prop := Retries 0 t ∧
    ∃ stop, Delimiter.commandSubstitution.Constructs (ascii "$((" ++ x) 0 stop node
  refine (element_of_attempt inv hs rfl hp rfl ?_ ?_ ?_).imp ?_
  · refine (attempt_refused hs hp (hx ▸ hl) hv).mono ?_ ?_
    · rintro node t ⟨retries, constructs⟩
      exact ⟨retries, _, constructs⟩
    · rintro e t retries
      split <;> exact retries
  · rintro l t ⟨_, _, ⟨_, _, _, h⟩, _⟩
    nomatch h
  · rintro node t _ _ ⟨retries, constructs⟩
    refine (wordPart_logs nestingLimit t).mono ?_ ?_
    · rintro _ u logged
      exact ⟨retries.mono logged, constructs⟩
    · rintro _ u logged
      exact retries.mono logged
  · rintro node t ⟨head, parts, u, rfl, _, ⟨retries, stop, constructs⟩, rfl⟩
    exact ⟨retries.mono (u.journal_subset_enter .command), head, parts, stop, rfl, constructs⟩

end Calls

end Scan

namespace Lexer

open Scan

section Decisions

variable {x after : List UInt8} {pos : Nat}

theorem get_deep (hl : Literal x) (hv : sweep (nestingLimit - 1) 0 3 x = .deep pos) :
    (start (ascii "$((" ++ x)).get.1 = .error ⟨.tooDeep nestingLimit, pos⟩ := by
  rcases get_ends (start (ascii "$((" ++ x)) (List.cons_ne_nil _ _) (element_deep hl hv) with
    ⟨_, _, _, h⟩ | ⟨e, t, hget, rfl⟩
  · exact h.elim
  · rw [hget]

theorem get_closed (hl : Literal x)
    (hv : sweep (nestingLimit - 1) 0 3 x = .closed pos (0x29 :: after)) :
    (∀ quote, openQuote? none (pos + 2) after = some quote →
      (start (ascii "$((" ++ x)).get.1 = .error ⟨.unterminated .doubleQuote, quote⟩) ∧
    (openQuote? none (pos + 2) after = none → ∃ opening nodes closing parts,
      (start (ascii "$((" ++ x)).get.1 =
        .ok (some (.word (.enclosed .arithmetic opening nodes closing :: parts))) ∧
      (Node.enclosed .arithmetic opening nodes closing).text =
        (ascii "$((" ++ x).extract 0 (pos + 2)) := by
  rcases get_ends (start (ascii "$((" ++ x)) (List.cons_ne_nil _ _) (element_closed hl hv) with
    ⟨_, t, hget, hquote, _, parts, rfl, ⟨opening, nodes, closing, rfl⟩, spans⟩ |
    ⟨e, t, hget, hquote, hcause⟩
  · rw [hget, hquote]
    exact ⟨nofun, fun _ => ⟨opening, nodes, closing, parts, rfl, spans.text_eq⟩⟩
  · rw [hget, hquote]
    refine ⟨?_, nofun⟩
    rintro _ ⟨⟩
    rw [← hcause]

theorem get_refused (hl : Literal x) (hv : (sweep (nestingLimit - 1) 0 3 x).Refuses) :
    Retries 0 (start (ascii "$((" ++ x)).get.2.scanner ∧
    ((∃ e, (start (ascii "$((" ++ x)).get.1 = .error e) ∨ ∃ opening nodes closing parts,
      (start (ascii "$((" ++ x)).get.1 =
        .ok (some (.word (.enclosed .substitution opening nodes closing :: parts))) ∧
      opening.pos = 0) := by
  rcases get_ends (start (ascii "$((" ++ x)) (List.cons_ne_nil _ _) (element_refused hl hv) with
    ⟨_, t, hget, retries, _, parts, _, rfl, ⟨opening, nodes, closing, rfl⟩, spans⟩ |
    ⟨e, t, hget, retries⟩
  · rw [hget]
    exact ⟨retries, Or.inr ⟨opening, nodes, closing, parts, rfl, spans.pos_eq⟩⟩
  · rw [hget]
    exact ⟨retries, Or.inl ⟨e, rfl⟩⟩

end Decisions

/-- Where nothing is expanded or protected behind a `$((`, counting parentheses says what it is. If
as many are open as there are levels, it is too deep. If the one that closes it is followed by
another, it is arithmetic, and the call fails only for a quote that the rest of the word leaves
open. In any other case it is read again. -/
theorem arithmetic_by_counting (x : List UInt8) (hd : 0x24 ∉ x) (hb : 0x5C ∉ x) :
    let call := (start (ascii "$((" ++ x)).get
    (∀ k, reaches? nestingLimit x = some k →
      call.1 = .error ⟨.tooDeep nestingLimit, 3 + k⟩) ∧
    (∀ i, reaches? nestingLimit x = none → unmatched? x = some i → x[i + 1]? = some 0x29 →
      (∀ quote, openQuote? none (i + 5) (x.drop (i + 2)) = some quote →
        call.1 = .error ⟨.unterminated .doubleQuote, quote⟩) ∧
      (openQuote? none (i + 5) (x.drop (i + 2)) = none →
        ∃ opening nodes closing parts,
          call.1 = .ok (some (.word (.enclosed .arithmetic opening nodes closing :: parts))) ∧
          (Node.enclosed .arithmetic opening nodes closing).text =
            ascii "$((" ++ x.take (i + 2))) ∧
    (reaches? nestingLimit x = none → (∀ i, unmatched? x = some i → x[i + 1]? ≠ some 0x29) →
      (∃ e, e.isTooDeep = false ∧ Event.retry 0 e ∈ call.2.scanner.journal) ∧
      ((∃ e, call.1 = .error e) ∨ ∃ opening nodes closing parts,
        call.1 = .ok (some (.word (.enclosed .substitution opening nodes closing :: parts))) ∧
        opening.pos = 0)) := by
  intro call
  have hl : Literal x := ⟨hd, hb⟩
  cases hv : sweep (nestingLimit - 1) 0 3 x with
  | deep pos =>
    obtain ⟨k, hk, rfl⟩ := decision_deep hv
    change reaches? nestingLimit x = some k at hk
    rw [hk]
    refine ⟨?_, nofun, nofun⟩
    rintro _ ⟨⟩
    exact get_deep hl hv
  | closed pos after =>
    obtain ⟨i, hi, hk, rfl, rfl⟩ := decision_closed hv
    change reaches? nestingLimit x = none at hk
    rw [hk, hi]
    refine ⟨nofun, ?_, ?_⟩
    · rintro _ _ ⟨⟩ hnext
      rw [← List.head?_drop] at hnext
      obtain ⟨rest, hrest⟩ := List.head?_eq_some_iff.mp hnext
      obtain rfl : rest = x.drop (i + 2) := by
        rw [← List.tail_drop, hrest, List.tail_cons]
      have hpos : 3 + i + 2 = i + 5 := by omega
      rw [hrest] at hv
      have read := get_closed hl hv
      rw [hpos] at read
      exact read
    · intro _ hnext
      refine get_refused hl ?_
      rw [hv]
      change (x.drop (i + 1)).head? ≠ some 0x29
      rw [List.head?_drop]
      exact hnext i rfl
  | unclosed =>
    obtain ⟨hi, hk⟩ := decision_unclosed hv
    change reaches? nestingLimit x = none at hk
    rw [hk, hi]
    exact ⟨nofun, nofun, fun _ _ => get_refused hl (by rw [hv]; trivial)⟩

theorem arithmetic_by_counting_group :
    let x := ascii "(1)+2))a"
    (0x24 ∉ x ∧ 0x5C ∉ x) ∧ ∃ opening nodes closing parts,
      (start (ascii "$((" ++ x)).get.1 =
        .ok (some (.word (.enclosed .arithmetic opening nodes closing :: parts))) ∧
      (Node.enclosed .arithmetic opening nodes closing).text = ascii "$(((1)+2))" := by
  intro x
  have hd : 0x24 ∉ x := by decide
  have hb : 0x5C ∉ x := by decide
  have h := arithmetic_by_counting x hd hb
  exact ⟨⟨hd, hb⟩, (h.2.1 5 (by decide) (by decide) (by decide)).2 (by decide)⟩

/-- Arithmetic that counting recognizes is lost if a quote behind it is not closed. -/
theorem arithmetic_by_counting_unclosed :
    let x := ascii "1))\""
    (0x24 ∉ x ∧ 0x5C ∉ x) ∧ reaches? nestingLimit x = none ∧ unmatched? x = some 1 ∧
      x[1 + 1]? = some 0x29 ∧
      ¬ ∃ opening nodes closing parts, (start (ascii "$((" ++ x)).get.1 =
        .ok (some (.word (.enclosed .arithmetic opening nodes closing :: parts))) := by
  intro x
  have hget : (start (ascii "$((" ++ x)).get.1 = .error ⟨.unterminated .doubleQuote, 6⟩ := by rfl
  refine ⟨⟨by decide, by decide⟩, by decide, by decide, by decide, ?_⟩
  rintro ⟨opening, nodes, closing, parts, h⟩
  rw [hget] at h
  nomatch h

end Lexer

end ShellLex
