import ShellLex.Proofs.Substitution
/-!
Nested `case` statements. A script that is written out from a tree of commands has exactly the
nodes of the tree, on its own and inside of a command substitution: no parenthesis of a pattern
closes more than the pattern, and each `;;` and `esac` belongs to its own `case`.
-/
namespace ShellLex

/-- A word that means itself: none of its bytes has a role of its own. -/
structure PlainWord where
  bytes : List UInt8
  nonempty : bytes ≠ []
  plain : bytes.all isPlain

mutual

/-- A command is a list of plain words, the first of them not reserved, or a `case`. -/
inductive Command where
  | simple (first : PlainWord) (free : first.bytes ∉ Lexeme.keywords) (others : List PlainWord)
  | case (subject : PlainWord) (clauses : Clauses)

inductive Clauses where
  | nil
  | cons (pattern : PlainWord) (going : pattern.bytes ≠ ascii "esac") (body : Command)
      (rest : Clauses)

end

mutual

def Command.render : Command → List UInt8
  | .simple first _ others => (ascii " ").intercalate ((first :: others).map (·.bytes))
  | .case subject clauses =>
    ascii "case " ++ subject.bytes ++ ascii " in " ++ clauses.render ++ ascii "esac"

def Clauses.render : Clauses → List UInt8
  | .nil => []
  | .cons pattern _ body rest =>
    pattern.bytes ++ ascii ") " ++ body.render ++ ascii ";; " ++ rest.render

end

def Command.after : Command → State
  | .simple .. => .command
  | .case .. => .normal

/-- A piece of a rendered script that makes one node. -/
inductive Token where
  | keyword (text : List UInt8)
  | operator (text : List UInt8)
  | word (word : PlainWord)
  | space

namespace Token

def text : Token → List UInt8
  | keyword text | operator text => text
  | word w => w.bytes
  | space => ascii " "

def node (pos : Nat) : Token → Node
  | keyword text => .leaf ⟨.keyword, text, pos⟩
  | operator text => .leaf ⟨.operator, text, pos⟩
  | word w => .word [.leaf ⟨.term, w.bytes, pos⟩]
  | space => .leaf ⟨.space, ascii " ", pos⟩

def texts (tokens : List Token) : List UInt8 := tokens.flatMap text

def place : (pos : Nat) → List Token → List Node
  | _, [] => []
  | pos, token :: tokens => token.node pos :: place (pos + token.text.length) tokens

end Token

mutual

def Command.tokens : Command → List Token
  | .simple first _ others => .word first :: others.flatMap fun w => [.space, .word w]
  | .case subject clauses =>
    [.keyword (ascii "case"), .space, .word subject, .space, .keyword (ascii "in"), .space] ++
      (clauses.tokens ++ [.keyword (ascii "esac")])

def Clauses.tokens : Clauses → List Token
  | .nil => []
  | .cons pattern _ body rest =>
    [.word pattern, .operator (ascii ")"), .space] ++
      (body.tokens ++ ([.operator (ascii ";;"), .space] ++ rest.tokens))

end

def Command.nodes (command : Command) (pos : Nat) : List Node := Token.place pos command.tokens

namespace Token

@[simp] theorem texts_nil : texts [] = [] := rfl

@[simp] theorem texts_cons (token : Token) (tokens : List Token) :
    texts (token :: tokens) = token.text ++ texts tokens := by simp [texts]

@[simp] theorem texts_append (tokens tokens' : List Token) :
    texts (tokens ++ tokens') = texts tokens ++ texts tokens' := by simp [texts]

theorem move_node (shift pos : Nat) (token : Token) :
    (token.node pos).move (shift + ·) = token.node (shift + pos) := by
  cases token <;> rfl

theorem moveAll_place (shift pos : Nat) (tokens : List Token) :
    Node.moveAll (shift + ·) (place pos tokens) = place (shift + pos) tokens := by
  induction tokens generalizing pos with
  | nil => rfl
  | cons token tokens ih =>
    rw [place, Node.moveAll_cons, move_node, ih, place, Nat.add_assoc]

theorem place_plain (pos : Nat) (tokens : List Token) :
    Node.AllIn (¬ Node.Retried ·) (place pos tokens) := by
  induction tokens generalizing pos with
  | nil => trivial
  | cons token tokens ih =>
    refine ⟨?_, ih _⟩
    cases token with
    | keyword | operator | space => exact id
    | word => exact ⟨id, id, trivial⟩

end Token

theorem PlainWord.plain_of_mem (w : PlainWord) : ∀ b ∈ w.bytes, isPlain b :=
  List.all_eq_true.mp w.plain

theorem PlainWord.exists_cons (w : PlainWord) :
    ∃ b bytes, w.bytes = b :: bytes ∧ role b = .plain := by
  obtain ⟨b, bytes, hw⟩ := List.exists_cons_of_ne_nil w.nonempty
  exact ⟨b, bytes, hw, by simpa [isPlain] using w.plain_of_mem b (by simp [hw])⟩

theorem PlainWord.texts_words (first : PlainWord) (others : List PlainWord) :
    Token.texts (.word first :: others.flatMap fun w => [.space, .word w]) =
      (ascii " ").intercalate ((first :: others).map (·.bytes)) := by
  induction others generalizing first with
  | nil => simp [Token.text]
  | cons next others ih =>
    simpa [Token.text] using ih next

mutual

theorem Command.texts_tokens (command : Command) : Token.texts command.tokens = command.render := by
  match command with
  | .simple first _ others => exact PlainWord.texts_words first others
  | .case subject clauses =>
    simp [Command.tokens, Command.render, Token.text, clauses.texts_tokens, ascii]

theorem Clauses.texts_tokens (clauses : Clauses) : Token.texts clauses.tokens = clauses.render := by
  match clauses with
  | .nil => rfl
  | .cons pattern _ body rest =>
    simp [Clauses.tokens, Clauses.render, Token.text, body.texts_tokens, rest.texts_tokens, ascii]

end

def EndsWord (bytes : List UInt8) : Prop := ∀ b ∈ bytes.head?, (role b).endsWord

namespace Token

/-- What may follow a token without becoming a part of it. -/
def Meets (bytes : List UInt8) : Token → Prop
  | keyword _ | word _ => EndsWord bytes
  | space => ∀ b ∈ bytes.head?, isBlank b = false
  | operator _ => True

inductive Step : (before : State) → Token → (after : State) → Prop where
  | space (state) : Step state .space state
  | command {w} (h : w.bytes ∉ Lexeme.keywords) : Step .normal (.word w) .command
  | argument (w) : Step .command (.word w) .command
  | case : Step .normal (.keyword (ascii "case")) .caseSubject
  | subject (w) : Step .caseSubject (.word w) .caseIn
  | caseIn : Step .caseIn (.keyword (ascii "in")) .casePattern
  | pattern {w} (h : w.bytes ≠ ascii "esac") : Step .casePattern (.word w) .casePattern
  | closePattern : Step .casePattern (.operator (ascii ")")) .normal
  | clauseEnd {state} (h : state.isCommand) : Step state (.operator (ascii ";;")) .casePattern
  | esac : Step .casePattern (.keyword (ascii "esac")) .normal

/-- The tokens take the state on, and each is met by what follows: the next ones and, after the
last, `rest`. -/
inductive Run (rest : List UInt8) : (before : State) → List Token → (after : State) → Prop where
  | nil (state) : Run rest state [] state
  | cons {before middle after token tokens} (h : Step before token middle)
      (hm : token.Meets (texts tokens ++ rest)) (hr : Run rest middle tokens after) :
      Run rest before (token :: tokens) after

theorem Run.append {rest : List UInt8} {before middle after : State} {tokens tokens' : List Token}
    (h : Run (texts tokens' ++ rest) before tokens middle) (k : Run rest middle tokens' after) :
    Run rest before (tokens ++ tokens') after := by
  induction h with
  | nil => exact k
  | cons h hm _ ih =>
    rw [List.cons_append]
    refine .cons h ?_ (ih k)
    rwa [texts_append, List.append_assoc]

end Token

section Steps

variable {source rest data : List UInt8} {recalls : Prop} {levels pos : Nat}
  {before after : State} {token : Token}

theorem takeWhile_plain (hd : ∀ b ∈ data, isPlain b) (hr : EndsWord rest) :
    (data ++ rest).takeWhile isPlain = data := by
  rw [List.takeWhile_append_of_pos hd]
  cases rest with
  | nil => simp
  | cons b rest =>
    have hb : isPlain b = false := by
      have hends := hr b rfl
      unfold isPlain
      cases hrole : role b <;> simp_all [Role.endsWord]
    rw [List.takeWhile_cons_of_neg (by simp [hb]), List.append_nil]

/-- Plain bytes are a word of one part up to what ends it. -/
theorem Reads.plainWord (hne : data ≠ []) (hd : ∀ b ∈ data, isPlain b)
    (hs : source.drop pos = data ++ rest) (hr : EndsWord rest) :
    Reads source recalls levels .word pos [.leaf ⟨.term, data, pos⟩] (pos + data.length) := by
  have hrest : source.drop (pos + data.length) = rest := by
    rw [← List.drop_drop, hs, List.drop_left]
  have run := takeWhile_plain hd hr
  have hlex : Lexes .part (source.drop pos) .term data.length := by
    cases data with
    | nil => exact absurd rfl hne
    | cons b data =>
      rw [hs, List.cons_append]
      have plain : Lexes .part (b :: (data ++ rest)) .term _ := .plain (hd b (.head _))
      rwa [← List.cons_append, run] at plain
  have leaf : Reads source recalls levels .part pos [.leaf ⟨.term, data, pos⟩]
      (pos + data.length) := by
    have read : Reads source recalls levels _ pos _ _ := .lexeme hlex
    rwa [hs, List.take_left] at read
  refine .word (.partsSnoc .noParts leaf) (List.cons_ne_nil _ _) ?_
  simp only [Scan.inWord, Scanner.role?, Scanner.bare, hrest]
  cases rest with
  | nil => rfl
  | cons b rest =>
    have hb := hr b rfl
    simp [hb]

theorem PlainWord.reservation?_eq_none (w : PlainWord) (h : w.bytes ∉ Lexeme.keywords) :
    Scan.reservation? w.bytes = none := by
  unfold Scan.reservation?
  split
  · rename_i b hb
    have hplain := w.plain_of_mem b (by simp [hb])
    rw [if_neg]
    intro hmark
    simp [isPlain, hmark] at hplain
  · have hcase : w.bytes ≠ ascii "case" := by
      intro heq
      rw [heq] at h
      exact h (by decide)
    rw [if_neg hcase, if_neg h]

/-- A token at the start of what is left is read as its node. -/
theorem Token.Step.reads (h : token.Step before after) (hs : source.drop pos = token.text ++ rest)
    (hm : token.Meets rest) :
    Reads source recalls levels (.element .substitution before after) pos [token.node pos]
      (pos + token.text.length) := by
  have lexeme {kind : Kind} (hl : Lexes (.element .substitution before after) (token.text ++ rest)
      kind token.text.length) : Reads source recalls levels (.element .substitution before after)
        pos [.leaf ⟨kind, token.text, pos⟩] (pos + token.text.length) := by
    rw [← hs] at hl
    have read : Reads source recalls levels _ pos _ _ := .lexeme hl
    rwa [hs, List.take_left] at read
  have word (w : PlainWord) (ht : token = .word w) :
      Reads source recalls levels .word pos [.leaf ⟨.term, w.bytes, pos⟩]
        (pos + w.bytes.length) := by
    subst ht
    exact .plainWord w.nonempty w.plain_of_mem hs hm
  have keyword {data : List UInt8} (ht : token = .keyword data) (hd : data ∈ Lexeme.keywords) :
      Reads source recalls levels .word pos [.leaf ⟨.term, data, pos⟩] (pos + data.length) := by
    subst ht
    have hplain : ∀ word ∈ Lexeme.keywords, word ≠ [] ∧ word.all isPlain := by decide
    exact .plainWord (hplain data hd).1 (List.all_eq_true.mp (hplain data hd).2) hs hm
  cases h with
  | space =>
    have run : ((0x20 :: rest).takeWhile isBlank).length = 1 := by
      cases rest with
      | nil => rfl
      | cons b rest =>
        have hb := hm b rfl
        rw [List.takeWhile_cons_of_pos rfl, List.takeWhile_cons_of_neg (by simp [hb])]
        rfl
    have blanks : Lexes (.element .substitution before before) (0x20 :: rest) .space _ :=
      .blanks (by simp) rfl
    rw [run] at blanks
    exact lexeme blanks
  | @command w h =>
    refine .command rfl (fun _ => ?_) (word w rfl)
    simp [Scan.reserved?, Node.onlyLeaf?, w.reservation?_eq_none h]
  | argument w => exact .command rfl (by simp) (word w rfl)
  | case => exact .reserved rfl (keyword rfl (by decide))
  | subject w => exact .subject (word w rfl)
  | caseIn =>
    have run : (ascii "in" ++ rest).takeWhile isPlain = ascii "in" :=
      takeWhile_plain (List.all_eq_true.mp (by decide)) hm
    have hin : Lexes (.element .substitution .caseIn .casePattern) (ascii "in" ++ rest) .keyword
        ((ascii "in" ++ rest).takeWhile isPlain).length := .caseIn rfl run
    rw [run] at hin
    exact lexeme hin
  | @pattern w h =>
    refine .pattern ?_ (word w rfl)
    simpa [Node.onlyLeaf?] using h
  | closePattern => exact lexeme (.closePattern rfl)
  | clauseEnd h =>
    have hend : Lexes (.element .substitution before _) (0x3B :: 0x3B :: rest) .operator _ :=
      .separator h (Or.inl rfl)
    exact lexeme hend
  | esac => exact .esac rfl (keyword rfl (by decide))

/-- No token begins with a parenthesis, except after a pattern. -/
theorem Token.Step.goesOn (h : token.Step before after)
    (hs : source.drop pos = token.text ++ rest) :
    Delimiter.goesOn .commandSubstitution (.bare source pos before) = true := by
  have lead {b : UInt8} {bytes : List UInt8} (ht : token.text ++ rest = b :: bytes)
      (hb : role b ≠ .closeParen ∨ before = .casePattern) :
      Delimiter.goesOn .commandSubstitution (.bare source pos before) = true := by
    have hrest : (Scanner.bare source pos before).rest = b :: bytes := hs.trans ht
    rw [Delimiter.goesOn, Scanner.role?_cons hrest]
    simpa [Scanner.bare] using hb
  have word (w : PlainWord) (ht : token = .word w) :
      Delimiter.goesOn .commandSubstitution (.bare source pos before) = true := by
    subst ht
    obtain ⟨b, bytes, hw, hplain⟩ := w.exists_cons
    exact lead (congrArg (· ++ rest) hw) (Or.inl (by simp [hplain]))
  cases h with
  | space | case | caseIn | esac | clauseEnd => exact lead rfl (Or.inl (by decide))
  | closePattern => exact lead rfl (Or.inr rfl)
  | command | argument | subject | pattern => exact word _ rfl

/-- The induction on the tokens, after the nodes that were read before them. -/
theorem Token.Run.reads {tokens : List Token} (h : Token.Run rest before tokens after)
    (hs : source.drop pos = Token.texts tokens ++ rest) {start : State} {from_ : Nat}
    {nodes : List Node}
    (hn : Reads source recalls levels (.body .commandSubstitution start before) from_ nodes pos) :
    Reads source recalls levels (.body .commandSubstitution start after) from_
      (nodes ++ Token.place pos tokens) (pos + (Token.texts tokens).length) := by
  induction h generalizing pos nodes with
  | nil => simpa [Token.place] using hn
  | @cons _ _ _ token tokens h hm _ ih =>
    rw [Token.texts_cons, List.append_assoc] at hs
    have hnext : source.drop (pos + token.text.length) = Token.texts tokens ++ rest := by
      rw [← List.drop_drop, hs, List.drop_left]
    have read := ih hnext (.bodySnoc hn (h.goesOn hs) (h.reads hs hm))
    rw [List.append_assoc] at read
    rw [Token.texts_cons, List.length_append, ← Nat.add_assoc]
    exact read

end Steps

section Commands

variable {rest : List UInt8}

theorem endsWord_nil : EndsWord [] := by simp [EndsWord]

theorem endsWord_cons {b : UInt8} {bytes : List UInt8} (h : (role b).endsWord) :
    EndsWord (b :: bytes) := by
  rintro _ ⟨⟩
  exact h

theorem Token.meets_word (w : PlainWord) (tokens : List Token) :
    Token.space.Meets (Token.texts (.word w :: tokens) ++ rest) := by
  obtain ⟨b, bytes, hw, hplain⟩ := w.exists_cons
  rw [Token.texts_cons, Token.text, hw]
  rintro _ ⟨⟩
  simp [isBlank, hplain]

theorem Token.meets_keyword {text : List UInt8} (h : text ∈ Lexeme.keywords) (tokens : List Token) :
    Token.space.Meets (Token.texts (.keyword text :: tokens) ++ rest) := by
  have hkeyword : ∀ word ∈ Lexeme.keywords, word.head?.map isBlank = some false := by decide
  have hhead := hkeyword text h
  cases text with
  | nil => nomatch hhead
  | cons b bytes =>
    rintro _ ⟨⟩
    simpa using hhead

theorem Command.meets (command : Command) :
    Token.space.Meets (Token.texts command.tokens ++ rest) := by
  cases command with
  | simple first => exact Token.meets_word first _
  | case => exact Token.meets_keyword (by decide) _

theorem Clauses.meets (clauses : Clauses) (hr : Token.space.Meets rest) :
    Token.space.Meets (Token.texts clauses.tokens ++ rest) := by
  cases clauses with
  | nil => exact hr
  | cons pattern => exact Token.meets_word pattern _

theorem PlainWord.run_arguments (others : List PlainWord) (hr : EndsWord rest) :
    Token.Run rest .command (others.flatMap fun w => [.space, .word w]) .command ∧
      EndsWord (Token.texts (others.flatMap fun w => [.space, .word w]) ++ rest) := by
  induction others with
  | nil => exact ⟨.nil _, hr⟩
  | cons w others ih =>
    rw [List.flatMap_cons, List.cons_append, List.singleton_append]
    refine ⟨.cons (.space _) (Token.meets_word w _) (.cons (.argument w) ih.2 ih.1), ?_⟩
    exact endsWord_cons rfl

mutual

/-- One case for each form of command: its tokens follow one another from the start of a command
to where the command leaves the script. -/
theorem Command.run (command : Command) {rest : List UInt8} (hr : EndsWord rest) :
    Token.Run rest .normal command.tokens command.after := by
  match command with
  | .simple first free others =>
    have arguments := PlainWord.run_arguments others hr
    exact .cons (.command free) arguments.2 arguments.1
  | .case subject clauses =>
    have hesac : Token.space.Meets (Token.texts [.keyword (ascii "esac")] ++ rest) :=
      Token.meets_keyword (by decide) []
    have patterns : Token.Run rest .casePattern
        (clauses.tokens ++ [.keyword (ascii "esac")]) .normal :=
      .append (clauses.run hesac) (.cons .esac hr (.nil _))
    have hpatterns : Token.space.Meets
        (Token.texts (clauses.tokens ++ [.keyword (ascii "esac")]) ++ rest) := by
      rw [Token.texts_append, List.append_assoc]
      exact clauses.meets hesac
    simp only [Command.tokens, List.cons_append, List.nil_append]
    refine .cons .case (endsWord_cons rfl) (.cons (.space _) (Token.meets_word subject _) ?_)
    refine .cons (.subject subject) (endsWord_cons rfl) (.cons (.space _) ?_ ?_)
    · exact Token.meets_keyword (by decide) _
    · exact .cons .caseIn (endsWord_cons rfl) (.cons (.space _) hpatterns patterns)

theorem Clauses.run (clauses : Clauses) {rest : List UInt8} (hr : Token.space.Meets rest) :
    Token.Run rest .casePattern clauses.tokens .casePattern := by
  match clauses with
  | .nil => exact .nil _
  | .cons pattern going body others =>
    have hbody : body.after.isCommand := by cases body <;> rfl
    have next : Token.Run rest body.after (.operator (ascii ";;") :: .space :: others.tokens)
        .casePattern :=
      .cons (.clauseEnd hbody) trivial (.cons (.space _) (others.meets hr) (others.run hr))
    have hnext : EndsWord (Token.texts (.operator (ascii ";;") :: .space :: others.tokens) ++
        rest) := endsWord_cons rfl
    simp only [Clauses.tokens, List.cons_append, List.nil_append]
    refine .cons (.pattern going) (endsWord_cons rfl) (.cons .closePattern trivial ?_)
    refine .cons (.space _) ?_ (.append (body.run hnext) next)
    rw [Token.texts_append, List.append_assoc]
    exact body.meets

end

end Commands

/-- The body of a substitution is a script on its own. -/
theorem Reads.script_of_body {source : List UInt8} {recalls : Prop} {levels pos stop : Nat}
    {before after : State} {nodes : List Node}
    (h : Reads source recalls levels (.body .commandSubstitution before after) pos nodes stop) :
    Reads source recalls levels (.script before after) pos nodes stop := by
  generalize hg : Goal.body .commandSubstitution before after = goal at h
  induction h generalizing after with
  | emptyBody =>
    obtain ⟨_, rfl, rfl⟩ := Goal.body.inj hg
    exact .emptyScript
  | bodySnoc _ _ hn ih =>
    obtain ⟨rfl, rfl, rfl⟩ := Goal.body.inj hg
    exact .scriptSnoc (ih rfl) hn
  | lexeme h =>
    subst hg
    exact h.lexical.elim
  | refer hg' =>
    subst hg
    exact hg'.elim
  | _ => nomatch hg

namespace Command

variable (command : Command)

theorem reads {source rest : List UInt8} {recalls : Prop} {levels pos : Nat} (hr : EndsWord rest)
    (hs : source.drop pos = command.render ++ rest) :
    Reads source recalls levels (.body .commandSubstitution .normal command.after) pos
      (command.nodes pos) (pos + command.render.length) := by
  rw [← command.texts_tokens] at hs ⊢
  exact (command.run hr).reads hs .emptyBody

theorem not_openParen : ¬ ascii "(" <+: command.render := by
  have lead {b : UInt8} {bytes : List UInt8} (h : ascii "(" <+: b :: bytes) :
      role b = .openParen := by
    obtain ⟨rest, hrest⟩ := h
    rw [← (List.cons.inj hrest).1]
    rfl
  rw [← command.texts_tokens]
  cases command with
  | simple first =>
    obtain ⟨b, bytes, hw, hplain⟩ := first.exists_cons
    rw [Command.tokens, Token.texts_cons, Token.text, hw]
    intro hp
    rw [lead hp] at hplain
    nomatch hplain
  | case => exact fun hp => nomatch lead hp

/-- What is written out from a command has the nodes of its tree and leaves the state that the
command does, and inside of a command substitution it has the same nodes. -/
theorem tokenize_render :
    tokenize command.render = .ok (command.nodes 0) ∧
    (∃ s, Scan.script (Scanner.start command.render) = .ok (command.nodes 0) s ∧
      s.state = command.after) ∧
    tokenize (ascii "$(" ++ command.render ++ ascii ")") =
      .ok [.word [.enclosed .substitution ⟨.quote, ascii "$(", 0⟩
        (Node.moveAll (2 + ·) (command.nodes 0))
        ⟨.quote, ascii ")", 2 + command.render.length⟩]] := by
  have plain (pos : Nat) : Node.AllIn (¬ Node.Retried ·) (command.nodes pos) :=
    Token.place_plain pos command.tokens
  have alone : Reads command.render False nestingLimit (.script .normal command.after) 0
      (command.nodes 0) command.render.length := by
    have hs : command.render.drop 0 = command.render ++ [] := by simp
    rw [← Nat.zero_add command.render.length]
    exact (command.reads endsWord_nil hs).script_of_body
  refine ⟨tokenize_of_reads alone (plain 0), script_of_reads alone (plain 0), ?_⟩
  have hs : (substituted command.render).drop 2 = command.render ++ [0x29] :=
    drop_substituted (Nat.zero_le _)
  have hafter : command.after ≠ .casePattern := by cases command <;> nofun
  have part : Reads (substituted command.render) False nestingLimit .part 0 _ _ :=
    (command.reads (endsWord_cons rfl) hs).part_substituted command.not_openParen hafter
  have moved : Node.moveAll (2 + ·) (command.nodes 0) = command.nodes 2 :=
    Token.moveAll_place 2 0 command.tokens
  rw [moved]
  refine tokenize_of_reads (part.script_of_part nofun) ⟨⟨id, ⟨?_, plain 2⟩, trivial⟩, trivial⟩
  intro hr
  exact not_expansion_substituted command.not_openParen
    ((Node.spansAll_singleton.mp part.spans).retried hr)

/-- The pattern of the inner `case` ends neither the outer one nor a substitution. -/
example : (case ⟨ascii "a", by decide, by decide⟩ (.cons ⟨ascii "b", by decide, by decide⟩
    (by decide) (case ⟨ascii "c", by decide, by decide⟩ .nil) .nil)).render =
      ascii "case a in b) case c in esac;; esac" := by
  decide

end Command

end ShellLex
