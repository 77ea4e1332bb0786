import Mathlib.Data.List.TakeWhile
import ShellLex.Proofs.Completeness.Runs
import ShellLex.Proofs.Locality
import ShellLex.Proofs.Transitions
/-!
Nodes that are read again, each from its own text. The leaves of a script come back as they are. So
does a construct, unless a command substitution in it that was read from `$((` is arithmetic in the
text of the construct: the bytes that kept it from being arithmetic may lie behind the construct.
-/
namespace ShellLex

section Parts

variable {source : List UInt8} {recalls : Prop} {levels pos stop : Nat} {nodes : List Node}
  {node : Node}

theorem Reads.mem_script {before after : State}
    (h : Reads source recalls levels (.script before after) pos nodes stop) (hm : node ∈ nodes) :
    ∃ state next start last, last ≤ stop ∧
      Reads source recalls levels (.element .substitution state next) start [node] last := by
  generalize hg : Goal.script before after = goal at h
  induction h generalizing after with
  | emptyScript => nomatch hm
  | scriptSnoc _ hn ih =>
    obtain ⟨rfl, rfl⟩ := Goal.script.inj hg
    rcases List.mem_append.mp hm with hm | hm
    · obtain ⟨state, next, start, last, hl, hnode⟩ := ih hm rfl
      exact ⟨state, next, start, last, hl.trans hn.le, hnode⟩
    · obtain rfl := List.mem_singleton.mp hm
      exact ⟨_, _, _, _, Nat.le_refl _, hn⟩
  | lexeme h =>
    subst hg
    exact h.lexical.elim
  | refer hg' =>
    subst hg
    exact hg'.elim
  | _ => nomatch hg

theorem Reads.mem_parts (h : Reads source recalls levels .parts pos nodes stop)
    (hm : node ∈ nodes) :
    ∃ start last, last ≤ stop ∧ Reads source recalls levels .part start [node] last := by
  generalize hg : Goal.parts = goal at h
  induction h with
  | noParts => nomatch hm
  | partsSnoc _ hn ih =>
    rcases List.mem_append.mp hm with hm | hm
    · obtain ⟨start, last, hl, hnode⟩ := ih hm hg
      exact ⟨start, last, hl.trans hn.le, hnode⟩
    · obtain rfl := List.mem_singleton.mp hm
      exact ⟨_, _, Nat.le_refl _, hn⟩
  | lexeme h =>
    subst hg
    exact h.lexical.elim
  | refer hg' =>
    subst hg
    exact hg'.elim
  | _ => nomatch hg

/-- The parts of a word in a script are those of a word anywhere. -/
theorem Reads.word_parts {before after : State} {parts : List Node}
    (h : Reads source recalls levels (.element .substitution before after) pos [.word parts] stop) :
    Reads source recalls levels .parts pos parts stop := by
  cases h with
  | refer hg => exact hg.elim
  | command _ _ h | subject h | pattern _ h => exact h.word_cases.1

end Parts

section Leaves

theorem tokenize_of_element {data : List UInt8} {after : State} {l : Leaf}
    (h : Reads data False nestingLimit (.element .substitution .normal after) 0 [.leaf l]
      data.length) : tokenize data = .ok [.leaf l] :=
  tokenize_of_reads (.scriptSnoc .emptyScript h) ⟨id, trivial⟩

theorem tokenize_of_lexes {data : List UInt8} {kind : Kind} {after : State}
    (h : Lexes (.element .substitution .normal after) data kind data.length) :
    tokenize data = .ok [.leaf ⟨kind, data, 0⟩] := by
  have hreads : Reads data False nestingLimit (.element .substitution .normal after) 0 _ _ :=
    .lexeme h
  rw [List.drop_zero, List.take_length, Nat.zero_add] at hreads
  exact tokenize_of_element hreads

theorem tokenize_run {accept : UInt8 → Bool} {b : UInt8} {bytes : List UInt8} {kind : Kind}
    (hb : accept b) (h : ∀ bytes, Lexes (.element .substitution .normal .normal) (b :: bytes) kind
      ((b :: bytes).takeWhile accept).length) :
    tokenize ((b :: bytes).takeWhile accept) =
      .ok [.leaf ⟨kind, (b :: bytes).takeWhile accept, 0⟩] := by
  have hrun := h (bytes.takeWhile accept)
  rw [← List.takeWhile_cons_of_pos hb, List.takeWhile_idem] at hrun
  exact tokenize_of_lexes hrun

theorem tokenize_operator {word : List UInt8} (h : word ∈ Lexeme.operators) :
    tokenize word = .ok [.leaf ⟨.operator, word, 0⟩] := by
  have table : Lexeme.operators.map tokenize =
      Lexeme.operators.map fun word => .ok [.leaf ⟨.operator, word, 0⟩] := by rfl
  exact List.map_inj_left.mp table word h

theorem tokenize_reservation {data : List UInt8} {kind : Kind} {next : State}
    (h : Scan.reservation? data = some (kind, next)) :
    tokenize data = .ok [.leaf ⟨kind, data, 0⟩] := by
  have marks : Lexeme.marks.map tokenize =
      Lexeme.marks.map fun word => .ok [.leaf ⟨.operator, word, 0⟩] := by rfl
  have keywords : Lexeme.keywords.map tokenize =
      Lexeme.keywords.map fun word => .ok [.leaf ⟨.keyword, word, 0⟩] := by rfl
  rcases Scan.reservation?_eq_some h with ⟨rfl, _, hm⟩ | ⟨rfl, _, rfl⟩ | ⟨rfl, _, hm, _⟩
  · exact List.map_inj_left.mp marks data hm
  · rfl
  · exact List.map_inj_left.mp keywords data hm

theorem tokenize_lexeme {before after : State} {bytes : List UInt8} {kind : Kind} {size : Nat}
    (h : Lexes (.element .substitution before after) bytes kind size) :
    tokenize (bytes.take size) = .ok [.leaf ⟨kind, bytes.take size, 0⟩] := by
  cases h with
  | blanks hf hb =>
    rw [Lexeme.take_run]
    exact tokenize_run (by simp [isBlank, hb]) fun _ => .blanks hf hb
  | comment hb =>
    rw [Lexeme.take_run]
    exact tokenize_run (by simp [hb]) fun _ => .comment hb
  | newline hb => exact tokenize_of_lexes (.newline hb)
  | @separator _ b bytes _ hb =>
    refine tokenize_operator (Lexeme.take_operator b bytes ?_).1
    rcases hb with h | h | h <;> simp [h]
  | @redirection _ b bytes _ hb =>
    exact tokenize_operator (Lexeme.take_operator b bytes (by simp [hb])).1
  | caseIn _ hw =>
    rw [Lexeme.take_run, hw]
    rfl
  | @openPattern b _ hb | @closePattern b _ hb =>
    exact tokenize_operator (role_operator (b := b) (by simp [hb]))
  | escape hg => exact hg.elim

/-- A leaf of a script is all that its own text is read as. -/
theorem Reads.tokenize_leaf {source : List UInt8} {recalls : Prop} {levels pos stop : Nat}
    {before after : State} {l : Leaf}
    (h : Reads source recalls levels (.element .substitution before after) pos [.leaf l] stop) :
    tokenize l.data = .ok [.leaf { l with pos := 0 }] := by
  cases h with
  | lexeme h => exact tokenize_lexeme h
  | refer hg => exact hg.elim
  | reserved hr =>
    obtain ⟨l, kind, rfl, _, hres, rfl⟩ := Scan.reserved?_eq_some hr
    exact tokenize_reservation hres
  | @esac _ _ _ _ l he =>
    have hd : l.data = ascii "esac" := by simpa using (Option.filter_eq_some_iff.mp he).2
    obtain ⟨kind, data, pos⟩ := l
    obtain rfl : data = _ := hd
    rfl

end Leaves

/-- The `$((` that a lexer without limit does not read as arithmetic. -/
def Ledger.ofArithmetic (source : List UInt8) : Ledger source where
  Denied pos _ := ¬ IsArithmetic source pos
  Here s := s.Fits source False
  grow _ h := h
  rest h := h.rest
  skip size h := h.skip size
  enter state h := h.enter state
  note event h := h.note event
  rewind h k := h.rewind k
  record _ _ h := h.record False.elim

section Denied

open Scan

variable {source : List UInt8} {nodes : List Node}

theorem ofArithmetic_denies {left : Inner} (hi : left.Alike source False (some unlimited)) :
    (Ledger.ofArithmetic source).passage.Denies left := by
  intro s e t hrun he hs
  have fits : (s.note (.attempt s.pos)).Fits source False := Scanner.Fits.note hs _
  have denied := not_isArithmetic hi fits hrun he
  exact denied

theorem unlimited_inside (source : List UInt8) :
    (Ledger.ofArithmetic source).passage.Inside 1 (some unlimited) := by
  have hd (levels : Nat) := ofArithmetic_denies (deeper_unlimited source levels).alike
  rintro _ ⟨⟩
  refine ⟨0, rfl, fun form s => ?_⟩
  exact Passage.part_along (Passage.deeper_inside hd s.rest.length) (hd _) form s

/-- No `$((` is read as a command substitution that could be arithmetic. -/
theorem tokenize_denied (h : tokenize source = .ok nodes) :
    Node.AllIn (fun node => node.Retried → ¬ IsArithmetic source node.pos) nodes := by
  obtain ⟨after, hreads⟩ := tokenize_reads h
  have hs : (Scanner.start source).Sound source True := Lexer.Reachable.start.sound
  have follow := script_alike source True _ _ ⟨hs, hs.fits.forget, rfl, rfl⟩
  have hdenies := ofArithmetic_denies (unlimited_alike source)
  have hinv : (Ledger.ofArithmetic source).Inv { Scanner.start source with outcomes := none } :=
    ⟨hs.fits.forget, nofun⟩
  have run : (Ledger.ofArithmetic source).passage.AlongAll 1
      (many (!·.rest.isEmpty) (scriptPart (some unlimited)))
      { Scanner.start source with outcomes := none } :=
    Passage.many_along (Passage.scriptPart_along (unlimited_inside source) hdenies) _
  unfold tokenize at h
  unfold Passage.AlongAll Ends at run
  generalize script (Scanner.start source) = l at h follow
  generalize many _ _ _ = r at follow run
  cases follow with
  | ok =>
    obtain rfl := Except.ok.inj h
    exact Ledger.allIn_retried hreads.spans (run hinv).2
  | error => nomatch h
  | tooDeep => nomatch h

end Denied

/-- The text of the node is read as one word with this node alone. -/
def Node.Relexes (node : Node) : Prop :=
  tokenize node.text = .ok [.word [node.move (· - node.pos)]]

section Constructs

variable {source : List UInt8} {recalls : Prop} {levels start stop : Nat} {node : Node}

theorem overlap_extract (h : stop ≤ source.length) :
    Overlap source (source.extract start stop) start stop (· - start) where
  add hlo size := by omega
  common {pos} hlo hpos := by
    refine ⟨source.extract pos stop, source.drop stop, [], ?_, ?_, ?_⟩
    · rw [List.extract_eq_take_drop, List.length_take, List.length_drop]
      omega
    · have happend := List.take_append_drop (stop - pos) (source.drop pos)
      rw [List.drop_drop, Nat.add_sub_cancel' hpos] at happend
      rw [List.extract_eq_take_drop]
      exact happend.symm
    · have hsize : stop - start - (pos - start) = stop - pos := by omega
      rw [List.append_nil, List.extract_eq_take_drop, List.extract_eq_take_drop, List.drop_take,
        List.drop_drop, hsize, Nat.add_sub_cancel' hlo]

/-- The text of a construct is a script, of one word with the construct as the source has it. -/
theorem Reads.script_text {limit : Nat} (h : Reads source recalls levels .part start [node] stop)
    (hs : stop ≤ source.length) (hn : ∀ l, node ≠ .leaf l) (hl : node.nesting ≤ limit) :
    Reads node.text False limit (.script .normal .command) 0
      [.word [node.move (· - node.pos)]] node.text.length := by
  have hspans := Node.spansAll_singleton.mp h.spans
  have part := (h.relevel (Node.nestingAll_singleton.trans_le hl)).transfer (overlap_extract hs)
    (Nat.le_refl _) (Or.inr ⟨rfl, trivial, fun l heq => hn l (List.singleton_inj.mp heq)⟩)
  have hlength : node.text.length = stop - start := by
    rw [hspans.text_eq, List.extract_eq_take_drop, List.length_take, List.length_drop]
    omega
  rw [Nat.sub_self, ← hspans.text_eq, ← hlength] at part
  rw [hspans.pos_eq]
  refine part.script_of_part ?_
  cases node with
  | leaf l => exact absurd rfl (hn l)
  | word | enclosed => exact fun l => nofun

/-- A construct is read from its own text as the script has it, unless that runs out of levels, if
what the script reads as a command substitution is no arithmetic there. -/
theorem Reads.relexes_iff (h : Reads source recalls levels .part start [node] stop)
    (hs : stop ≤ source.length) (hn : ∀ l, node ≠ .leaf l) :
    node.Relexes ↔
      node.All (fun m => m.Retried → ¬ IsArithmetic node.text (m.pos - node.pos)) ∧
      ∀ e, tokenize node.text = .error e → e.isTooDeep = false := by
  have moved := Node.all_retried_move (· - node.pos) (¬ IsArithmetic node.text ·) node
  constructor
  · intro hrelexes
    have denied := tokenize_denied hrelexes
    refine ⟨moved.mp denied.1.2.1, fun e he => ?_⟩
    rw [hrelexes] at he
    nomatch he
  · rintro ⟨hd, henough⟩
    have script := h.script_text hs hn (Nat.le_refl _)
    rcases tokenize_of_denied script ⟨⟨False.elim, moved.mpr hd, trivial⟩, trivial⟩ with
      hok | ⟨e, he, hdeep⟩
    · exact hok
    · rw [henough e he] at hdeep
      nomatch hdeep

/-- A construct in which nothing was read twice is read from its own text alike, if it nests no
deeper than a script may. -/
theorem Reads.relexes (h : Reads source recalls levels .part start [node] stop)
    (hs : stop ≤ source.length) (hn : ∀ l, node ≠ .leaf l)
    (hr : node.All (¬ Node.Retried ·)) (hl : node.nesting ≤ nestingLimit) : node.Relexes := by
  have script := h.script_text hs hn hl
  refine tokenize_of_reads script ⟨⟨id, ?_, trivial⟩, trivial⟩
  rw [Node.all_move]
  exact hr.imp fun m hm => by rwa [Node.retried_move]

end Constructs

/-- The leaves of a script are read alike from their own texts. A construct in a word of it is if
none of the `$((` that were read twice in it is arithmetic in the text of the construct, where there
may be levels too few. -/
theorem tokenize_relexing {source : List UInt8} {nodes : List Node}
    (h : tokenize source = .ok nodes) :
    (∀ l, .leaf l ∈ nodes → tokenize l.data = .ok [.leaf { l with pos := 0 }]) ∧
    ∀ parts node, .word parts ∈ nodes → node ∈ parts → (∀ l, node ≠ .leaf l) →
      (node.Relexes ↔
        node.All (fun m => m.Retried → ¬ IsArithmetic node.text (m.pos - node.pos)) ∧
        ∀ e, tokenize node.text = .error e → e.isTooDeep = false) ∧
      (node.All (¬ Node.Retried ·) → node.nesting ≤ nestingLimit → node.Relexes) := by
  obtain ⟨after, hreads⟩ := tokenize_reads h
  constructor
  · intro l hl
    obtain ⟨_, _, _, _, _, hleaf⟩ := hreads.mem_script hl
    exact hleaf.tokenize_leaf
  · intro parts node hword hnode hn
    obtain ⟨_, _, _, last, hlast, hword⟩ := hreads.mem_script hword
    obtain ⟨start, stop, hstop, hpart⟩ := hword.word_parts.mem_parts hnode
    have hs := hstop.trans hlast
    exact ⟨hpart.relexes_iff hs hn, hpart.relexes hs hn⟩

theorem tokenize_relexing_sum :
    let node := Node.enclosed .arithmetic ⟨.quote, ascii "$((", 1⟩ [.leaf ⟨.variable, ascii "1", 4⟩]
      ⟨.quote, ascii "))", 5⟩
    tokenize (ascii ";$((1))") = .ok [.leaf ⟨.operator, ascii ";", 0⟩, .word [node]] ∧
    tokenize (ascii ";") = .ok [.leaf ⟨.operator, ascii ";", 0⟩] ∧ node.Relexes := by
  intro node
  have h : tokenize (ascii ";$((1))") = .ok [.leaf ⟨.operator, ascii ";", 0⟩, .word [node]] := by
    rfl
  have relexing := tokenize_relexing h
  refine ⟨h, relexing.1 _ (.head _), ?_⟩
  exact (relexing.2 _ node (.tail _ (.head _)) (.head _) nofun).2 ⟨id, id, trivial⟩ (by decide)

/-- As arithmetic, the inner `$((` goes on behind the outer substitution. If the source ends before
that, it is a substitution itself and the outer one is arithmetic. -/
def commented : List UInt8 := ascii "$((#$((((()))\n)"

theorem not_tokenize_relexing :
    ¬ ∀ source nodes, tokenize source = .ok nodes →
      (∀ l, .leaf l ∈ nodes → tokenize l.data = .ok [.leaf { l with pos := 0 }]) ∧
      ∀ parts node, .word parts ∈ nodes → node ∈ parts → (∀ l, node ≠ .leaf l) →
        node.Relexes := by
  intro h
  let node := Node.enclosed .substitution ⟨.quote, ascii "$(", 0⟩
    [.leaf ⟨.operator, ascii "(", 2⟩, .leaf ⟨.comment, ascii "#$((((()))", 3⟩,
      .leaf ⟨.newLine, ascii "\n", 13⟩] ⟨.quote, ascii ")", 14⟩
  have script : tokenize (commented ++ ascii ")") =
      .ok [.word [node], .leaf ⟨.operator, ascii ")", 15⟩] := by
    rfl
  have alone : tokenize commented = .ok [.word [.enclosed .arithmetic ⟨.quote, ascii "$((", 0⟩
      [.leaf ⟨.unknown, ascii "#", 3⟩, .enclosed .substitution ⟨.quote, ascii "$(", 4⟩
        [.leaf ⟨.operator, ascii "(", 6⟩, .leaf ⟨.operator, ascii "(", 7⟩,
          .leaf ⟨.operator, ascii "(", 8⟩, .leaf ⟨.operator, ascii "(", 9⟩]
        ⟨.quote, ascii ")", 10⟩] ⟨.quote, ascii "))", 11⟩],
      .leaf ⟨.newLine, ascii "\n", 13⟩, .leaf ⟨.operator, ascii ")", 14⟩] := by
    rfl
  have same : tokenize commented = .ok [.word [node.move (· - node.pos)]] :=
    (h _ _ script).2 _ node (.head _) (.head _) nofun
  rw [alone] at same
  nomatch same

end ShellLex
