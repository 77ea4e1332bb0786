import Mathlib.Tactic.IntervalCases
import ShellLex.Proofs.Completeness.Runs
import ShellLex.Proofs.Locality
import ShellLex.Proofs.Transitions
/-!
A script inside of a command substitution. What reads on its own reads alike with `$(` before it and
`)` after it, one level deeper, if no parenthesis of its own closes the substitution and its last
leaf does not take the one that does.
-/
namespace ShellLex

namespace Node

mutual

def lastLeaf? : Node → Option Leaf
  | .leaf l => some l
  | .word nodes => lastLeafAll? nodes
  | .enclosed _ _ _ closing => some closing

def lastLeafAll? : List Node → Option Leaf
  | [] => none
  | [node] => node.lastLeaf?
  | _ :: nodes => lastLeafAll? nodes

end

theorem lastLeafAll?_append (nodes : List Node) (node : Node) :
    lastLeafAll? (nodes ++ [node]) = node.lastLeaf? := by
  induction nodes with
  | nil => rfl
  | cons first nodes ih =>
    rw [List.cons_append, lastLeafAll?, ih]
    simp

end Node

/-- A leaf that is the same before any byte as it is at the end of a source. -/
def Leaf.Complete (l : Leaf) : Prop :=
  (l.kind = .escaped → l.data ≠ ascii "\\") ∧ (l.kind = .variable → l.data ≠ ascii "$")

section Closing

variable {u : List UInt8} {b : UInt8} {kind : Kind}

theorem takeWhile_close (accept : UInt8 → Bool) (h : (u.takeWhile accept).length = u.length)
    (hp : accept 0x29 = false) : (u ++ [0x29]).takeWhile accept = u.takeWhile accept := by
  rw [List.takeWhile_append, if_pos h, List.takeWhile_cons_of_neg (by simp [hp]), List.append_nil,
    (List.takeWhile_prefix accept).eq_of_length h]

/-- No operator goes on with a parenthesis. -/
theorem Lexeme.operator_close : operator (b :: u ++ [0x29]) = operator (b :: u) := by
  have hlast : ∀ word ∈ operators, word.getLast? = some 0x29 → word.length = 1 := by decide
  have hf : first? operators (b :: u ++ []) = first? operators (b :: u ++ [0x29]) := by
    apply first?_congr
    intro word hm hl
    refine ⟨fun hp => ?_, fun hp => ?_⟩
    · have := hp.length_le
      rw [List.append_nil] at this
      omega
    · obtain rfl : word = b :: u ++ [0x29] := by
        refine hp.eq_of_length (Nat.le_antisymm hp.length_le ?_)
        rw [List.length_append, List.length_singleton]
        omega
      have := hlast _ hm List.getLast?_concat
      simp at this
  rw [List.append_nil] at hf
  rw [operator, operator, hf]

theorem Lexes.close_element {before after : State}
    (h : Lexes (.element .substitution before after) u kind u.length) (hk : kind ≠ .comment) :
    Lexes (.element .substitution before after) (u ++ [0x29]) kind u.length := by
  generalize hl : u.length = size at h
  cases h with
  | @blanks _ _ b u _ hb =>
    have run := takeWhile_close isBlank hl.symm (by decide)
    rw [← run]
    exact .blanks (by simp) hb
  | comment => exact absurd rfl hk
  | newline hb => exact .newline hb
  | @separator _ b u hc hb =>
    have htake := take_append_congr (v := []) (Nat.le_of_eq hl.symm) [0x29]
    rw [List.append_nil] at htake
    rw [htake, ← Lexeme.operator_close]
    exact .separator hc hb
  | redirection hc hb =>
    rw [← Lexeme.operator_close]
    exact .redirection hc hb
  | caseIn hb hw =>
    have run := takeWhile_close isPlain hl.symm (by decide)
    rw [← run] at hw ⊢
    exact .caseIn hb hw
  | openPattern hb => exact .openPattern hb
  | closePattern hb => exact .closePattern hb
  | escape hg => exact hg.elim

theorem Lexes.close_part (h : Lexes .part u kind u.length)
    (hl : kind = .escaped → u ≠ ascii "\\") : Lexes .part (u ++ [0x29]) kind u.length := by
  generalize hs : u.length = size at h
  cases h with
  | @escape _ b u hg hb =>
    obtain rfl := Scan.eq_of_role.2.2.2.1 hb
    have hne : u ≠ [] := by
      rintro rfl
      exact hl rfl rfl
    have := List.length_pos_iff.mpr hne
    have hsize : Lexeme.escape (0x5C :: u) = Lexeme.escape (0x5C :: (u ++ [0x29])) := by
      simp only [Lexeme.escape, List.length_cons, List.length_append]
      omega
    rw [hsize]
    exact .escape hg hb
  | mark hb => exact .mark hb
  | plain hb =>
    have run := takeWhile_close isPlain hs.symm (by decide)
    rw [← run]
    exact .plain hb

theorem Lexes.close_reference (h : Lexes .reference u kind u.length)
    (hl : kind = .variable → u ≠ ascii "$") : Lexes .reference (u ++ [0x29]) kind u.length := by
  generalize hs : u.length = size at h
  cases h with
  | escape hg => exact hg.elim
  | @dollar b u hb hp hu =>
    obtain rfl := Scan.eq_of_role.2.2.2.2 hb
    cases u with
    | nil => exact absurd rfl (hl rfl)
    | cons c u =>
      have two (word : List UInt8) (hw : word.length = 2) :
          word <+: 0x24 :: c :: u ↔ word <+: 0x24 :: c :: u ++ [0x29] := by
        have hle : word.length ≤ (0x24 :: c :: u).length := by simp [hw]
        have hiff : word <+: 0x24 :: c :: u ++ [] ↔ word <+: 0x24 :: c :: u ++ [0x29] :=
          prefix_append_congr hle [0x29]
        rwa [List.append_nil] at hiff
      have hsize : Lexeme.reference (0x24 :: c :: u) =
          Lexeme.reference (0x24 :: c :: u ++ [0x29]) := by
        simp only [Lexeme.reference, List.cons_append] at hs ⊢
        split
        · rename_i hc
          rw [if_pos hc] at hs
          simp only [List.length_cons] at hs
          have hrun : (u.takeWhile isLetter).length = u.length := by omega
          rw [takeWhile_close isLetter hrun (by decide)]
        · rfl
      rw [two _ (by decide)] at hp hu
      rw [hsize]
      exact .dollar hb hp hu

end Closing

def substituted (x : List UInt8) : List UInt8 := ascii "$(" ++ x ++ ascii ")"

section Body

variable {x : List UInt8} {recalls : Prop} {levels pos : Nat} {nodes : List Node} {node : Node}

theorem drop_substituted (h : pos ≤ x.length) :
    (substituted x).drop (2 + pos) = x.drop pos ++ [0x29] := by
  have htwo : (ascii "$(").length = 2 := rfl
  rw [substituted, List.append_assoc, ← htwo, List.drop_length_add_append,
    List.drop_append_of_le_length h]
  rfl

theorem overlap_substituted (x : List UInt8) :
    Overlap x (substituted x) 0 x.length (2 + ·) where
  add _ size := by omega
  common {pos} _ hpos :=
    ⟨x.drop pos, [], [0x29], List.length_drop, (List.append_nil _).symm, drop_substituted hpos⟩

/-- A leaf at the end of the script is one before the parenthesis, if it stops there. -/
theorem Lexes.reads_substituted {goal : Goal} {kind : Kind} {size : Nat}
    (h : Lexes goal (x.drop pos) kind size) (hstop : x.length = pos + size)
    (close : Lexes goal (x.drop pos) kind (x.drop pos).length →
      Lexes goal (x.drop pos ++ [0x29]) kind (x.drop pos).length) :
    Reads (substituted x) recalls levels goal (2 + pos)
      [.leaf ⟨kind, (x.drop pos).take size, 2 + pos⟩] (2 + x.length) := by
  have hsize : size = (x.drop pos).length := by
    rw [List.length_drop]
    omega
  have htake := take_append_congr (u := x.drop pos) (v := []) (Nat.le_of_eq hsize) [0x29]
  rw [hsize] at h
  have hclosed := close h
  rw [List.append_nil, ← drop_substituted (by omega)] at htake
  rw [← drop_substituted (by omega), ← hsize] at hclosed
  rw [htake, hstop, ← Nat.add_assoc]
  exact .lexeme hclosed

theorem Leaf.Complete.at_end {kind : Kind} {size : Nat} (hstop : x.length = pos + size)
    (h : Leaf.Complete ⟨kind, (x.drop pos).take size, pos⟩) :
    (kind = .escaped → x.drop pos ≠ ascii "\\") ∧ (kind = .variable → x.drop pos ≠ ascii "$") := by
  have htake : (x.drop pos).take size = x.drop pos := by
    apply List.take_of_length_le
    rw [List.length_drop]
    omega
  rw [Leaf.Complete, htake] at h
  exact h

/-- A construct that ends with the script is read as it is. -/
theorem Reads.close_construct {goal : Goal} (h : Reads x recalls levels goal pos [node] x.length)
    (hg : goal.Shut) (hn : ∀ l, node ≠ .leaf l) :
    Reads (substituted x) recalls levels goal (2 + pos) [node.move (2 + ·)] (2 + x.length) := by
  refine h.transfer (overlap_substituted x) (Nat.zero_le _) (Or.inr ⟨rfl, hg, ?_⟩)
  intro l heq
  exact hn l (List.singleton_inj.mp heq)

theorem Reads.close_reference (h : Reads x recalls levels .reference pos [node] x.length)
    (hl : ∀ l, node = .leaf l → l.Complete) :
    Reads (substituted x) recalls levels .reference (2 + pos) [node.move (2 + ·)]
      (2 + x.length) := by
  have whole := h.close_construct trivial
  generalize hstop : x.length = stop at h
  cases h with
  | lexeme h =>
    rw [← hstop]
    exact h.reads_substituted hstop fun h => h.close_reference ((hl _ rfl).at_end hstop).2
  | refer hg => exact hg.elim
  | substitution _ h =>
    obtain ⟨_, opening, body, closing, heq, _⟩ := h.construct_cases
    obtain rfl := List.singleton_inj.mp heq
    rw [← hstop]
    exact whole fun l h => nomatch h
  | expand h =>
    obtain ⟨other, heq, hnode⟩ := h.expansion_shape rfl
    obtain rfl := List.singleton_inj.mp heq
    rw [← hstop]
    refine whole ?_
    rintro l rfl
    exact hnode

theorem Reads.close_part (h : Reads x recalls levels .part pos [node] x.length)
    (hl : ∀ l, node = .leaf l → l.Complete) :
    Reads (substituted x) recalls levels .part (2 + pos) [node.move (2 + ·)] (2 + x.length) := by
  have whole := h.close_construct trivial
  generalize hstop : x.length = stop at h
  cases h with
  | lexeme h =>
    rw [← hstop]
    exact h.reads_substituted hstop fun h => h.close_part ((hl _ rfl).at_end hstop).1
  | refer hg h =>
    rw [← hstop] at h ⊢
    exact .refer hg (h.close_reference hl)
  | quotes h =>
    obtain ⟨_, opening, body, closing, heq, _⟩ := h.construct_cases
    obtain rfl := List.singleton_inj.mp heq
    rw [← hstop]
    exact whole fun l h => nomatch h

theorem Reads.close_word (h : Reads x recalls levels .word pos nodes x.length)
    (hl : ∀ l, Node.lastLeafAll? nodes = some l → l.Complete) :
    Reads (substituted x) recalls levels .word (2 + pos) (Node.moveAll (2 + ·) nodes)
      (2 + x.length) := by
  obtain ⟨hparts, hne, _⟩ := h.word_cases
  refine .word ?_ (by simpa [Node.moveAll_eq_map] using hne) ?_
  · generalize hstop : x.length = stop at hparts
    cases hparts with
    | lexeme hx => exact hx.lexical.elim
    | refer hg => exact hg.elim
    | noParts => exact absurd rfl hne
    | partsSnoc first last =>
      subst hstop
      have hlt := last.lt_of_singleton
      rw [Node.moveAll_append]
      refine .partsSnoc (first.transfer (overlap_substituted x) (Nat.zero_le _) (Or.inl hlt)) ?_
      refine last.close_part ?_
      rintro l rfl
      exact hl l (Node.lastLeafAll?_append _ _)
  · simp [Scan.inWord, Scanner.role?, Scanner.bare, drop_substituted (Nat.le_refl _), Role.endsWord]
    rfl

theorem Reads.close_element {before after : State}
    (h : Reads x recalls levels (.element .substitution before after) pos [node] x.length)
    (hc : ∀ l, node = .leaf l → l.kind ≠ .comment)
    (hl : ∀ l, node.lastLeaf? = some l → l.Complete) :
    Reads (substituted x) recalls levels (.element .substitution before after) (2 + pos)
      [node.move (2 + ·)] (2 + x.length) := by
  generalize hstop : x.length = stop at h
  cases h with
  | lexeme h =>
    rw [← hstop]
    exact h.reads_substituted hstop fun h => h.close_element (hc _ rfl)
  | refer hg => exact hg.elim
  | command hs hr h =>
    subst hstop
    refine .command hs ?_ (h.close_word hl)
    intro hn
    rw [Scan.reserved?_moveAll, hr hn, Option.map_none]
  | reserved hr h =>
    subst hstop
    obtain ⟨l, kind, rfl, hk, _, rfl⟩ := Scan.reserved?_eq_some hr
    have hcomplete : l.Complete := by simp [Leaf.Complete, hk]
    refine .reserved ?_ (h.close_word ?_)
    · rw [Scan.reserved?_moveAll, hr, Option.map_some]
    · rintro _ ⟨⟩
      exact hcomplete
  | subject h =>
    subst hstop
    exact .subject (h.close_word hl)
  | @esac _ _ nodes _ leaf he h =>
    subst hstop
    have he' : (Node.onlyLeaf? .term (Node.moveAll (2 + ·) nodes)).filter (·.data = ascii "esac") =
        some (leaf.move (2 + ·)) := by
      rw [Node.onlyLeaf?_filter_moveAll, he, Option.map_some]
    obtain ⟨rfl, hk⟩ := Node.onlyLeaf?_eq_some (Option.filter_eq_some_iff.mp he).1
    have hcomplete : leaf.Complete := by simp [Leaf.Complete, hk]
    refine .esac he' (h.close_word ?_)
    rintro _ ⟨⟩
    exact hcomplete
  | pattern he h =>
    subst hstop
    refine .pattern ?_ (h.close_word hl)
    rw [Node.onlyLeaf?_filter_moveAll, he, Option.map_none]

/-- The body of a substitution is closed by the parenthesis after it. -/
theorem Reads.close_body {after : State}
    (h : Reads x recalls levels (.body .commandSubstitution .normal after) 0 nodes x.length)
    (hc : ∀ l, nodes.getLast? = some (.leaf l) → l.kind ≠ .comment)
    (hl : ∀ l, Node.lastLeafAll? nodes = some l → l.Complete) :
    Reads (substituted x) recalls levels (.body .commandSubstitution .normal after) 2
      (Node.moveAll (2 + ·) nodes) (2 + x.length) := by
  generalize hstop : x.length = stop at h
  cases h with
  | lexeme h => exact h.lexical.elim
  | refer hg => exact hg.elim
  | emptyBody => exact .emptyBody
  | @bodySnoc _ _ _ state _ _ _ middle _ _ first hm last =>
    subst hstop
    have hlt := last.lt_of_singleton
    have overlap := overlap_substituted x
    rw [Node.moveAll_append]
    refine .bodySnoc (first.transfer overlap (Nat.zero_le _) (Or.inl hlt)) ?_ ?_
    · rwa [← overlap.goesOn_eq (Nat.zero_le _) hlt]
    · refine last.close_element ?_ ?_
      · rintro l rfl
        exact hc l List.getLast?_concat
      · intro l hnode
        exact hl l ((Node.lastLeafAll?_append _ _).trans hnode)

end Body

/-- No parenthesis of the script is the one that closes a substitution around it: each stands among
the patterns of a `case`, and at the end there is no `case` with patterns to come. -/
structure Lexer.Closed (x : List UInt8) : Prop where
  patterns : ∀ lexer l, Reachable x lexer → lexer.get.1 = .ok (some (.leaf l)) →
    l.kind = .operator → l.data = ascii ")" → lexer.state = .casePattern
  ending : ∀ lexer, Reachable x lexer → lexer.pos = x.length → lexer.state ≠ .casePattern

variable {source : List UInt8} {recalls : Prop} {levels pos stop : Nat}

theorem Lexeme.operator_closeParen (bytes : List UInt8) :
    (0x29 :: bytes).take (operator (0x29 :: bytes)) = ascii ")" := by
  obtain ⟨hm, hh⟩ := take_operator 0x29 bytes (by decide)
  generalize (0x29 :: bytes).take (operator (0x29 :: bytes)) = word at hm hh
  revert word
  decide

/-- A closing parenthesis is an operator wherever a script can have one. -/
theorem Reads.closeParen {before after : State} {node : Node} {bytes : List UInt8}
    (h : Reads source recalls levels (.element .substitution before after) pos [node] stop)
    (hd : source.drop pos = 0x29 :: bytes) : node = .leaf ⟨.operator, ascii ")", pos⟩ := by
  have noWord {nodes : List Node} {stop : Nat}
      (h : Reads source recalls levels .word pos nodes stop) : False := by
    obtain ⟨b, rest, hr, hb⟩ := h.word_starts
    rw [hd] at hr
    obtain ⟨rfl, _⟩ := List.cons.inj hr
    exact absurd hb (by decide)
  cases h with
  | lexeme h =>
    rw [hd] at h ⊢
    cases h with
    | separator => rw [Lexeme.operator_closeParen]
    | closePattern => rfl
    | escape hg => exact hg.elim
    | caseIn hb => exact absurd hb (by decide)
    | blanks _ hb | comment hb | newline hb | redirection _ hb | openPattern hb =>
      exact absurd hb (by decide)
  | refer hg => exact hg.elim
  | command _ _ h | reserved _ h | subject h | esac _ h | pattern _ h => exact (noWord h).elim

/-- What a closed script goes on with does not close a substitution. -/
theorem Lexer.Closed.goesOn {lexer after : Lexer} {node : Node} (hc : Closed source)
    (h : Reachable source lexer) (hget : lexer.get = (.ok (some node), after)) :
    Delimiter.goesOn .commandSubstitution (.bare source lexer.pos lexer.state) = true := by
  rcases get_cases h.fits with hn | ⟨found, t, hn, hr⟩ | ⟨e, t, hn, _⟩
  · simp [hn] at hget
  · obtain rfl : found = node := by simpa [hn] using congrArg Prod.fst hget
    have hne := (Node.spansAll_singleton.mp hr.reads.spans).drop_ne_nil
    obtain ⟨b, bytes, hd⟩ := List.exists_cons_of_ne_nil hne
    have hrole : (Scanner.bare source lexer.pos lexer.state).role? = some (role b) :=
      Scanner.role?_cons hd
    rw [Delimiter.goesOn, hrole]
    by_cases hb : role b = .closeParen
    · obtain rfl := Scan.eq_of_role.2.2.1 hb
      obtain rfl := hr.reads.closeParen hd
      have hstate := hc.patterns lexer _ h (by rw [hget]) rfl rfl
      simp [Scanner.bare, hstate]
    · simp [hb]
  · simp [hn] at hget

/-- The nodes of a script, if closed, are the body of a substitution. -/
theorem tokenize_body {x : List UInt8} {nodes : List Node} (h : tokenize x = .ok nodes)
    (hclosed : Lexer.Closed x) : ∃ after, after ≠ .casePattern ∧
      Reads x True nestingLimit (.body .commandSubstitution .normal after) 0 nodes x.length := by
  let inv (nodes : List Node) (t : Scanner) : Prop :=
    (∃ lexer, Lexer.Reachable x lexer ∧ lexer.scanner = t) ∧
      Reads x True nestingLimit (.body .commandSubstitution .normal t.state) 0 nodes t.pos
  have start : inv [] (.start x) := ⟨⟨_, .start, rfl⟩, .emptyBody⟩
  have run : Scan.Ends Scan.script (.start x)
      (fun nodes t => t.Fits x True ∧ (Scanner.start x).pos ≤ t.pos ∧ (!t.rest.isEmpty) = false ∧
        inv nodes t) (fun _ _ => True) := by
    refine Scan.many_ends (Scanner.start_fits x) start ?_ ?_
    · intro t hm hr
      simp [hr] at hm
    · rintro nodes t ht _ ⟨⟨lexer, hreach, rfl⟩, hn⟩ hm
      have hempty : lexer.scanner.rest.isEmpty = false := by simpa using hm
      unfold Scan.Ends
      cases hrun : Scan.element lexer.scanner with
      | error => trivial
      | ok node u =>
        have hr := (Scan.element_ends ht (by simpa using hempty)).of_ok hrun
        have hget : lexer.get = (.ok (some node), { lexer with scanner := u }) := by
          simp [Lexer.get, hempty, hrun]
        refine ⟨hr.fits, hr.reads.lt_of_singleton, ⟨_, hreach.get, by rw [hget]⟩, ?_⟩
        exact .bodySnoc hn (hclosed.goesOn hreach hget) hr.reads
  obtain ⟨t, hrun⟩ := script_of_tokenize h
  obtain ⟨ht, _, hm, ⟨lexer, hreach, rfl⟩, hn⟩ := run.of_ok hrun
  have hpos : lexer.scanner.pos = x.length := ht.pos_of_nil (by simpa using hm)
  rw [hpos] at hn
  exact ⟨_, hclosed.ending lexer hreach hpos, hn⟩

theorem not_expansion_substituted {x : List UInt8} (h : ¬ ascii "(" <+: x) :
    ¬ ascii "$((" <+: substituted x := by
  have hsplit : ascii "$((" = ascii "$(" ++ ascii "(" := rfl
  rw [substituted, List.append_assoc, hsplit, List.prefix_append_right_inj]
  cases x with
  | nil => decide
  | cons b x =>
    intro hp
    have hone : (ascii "(").length ≤ (b :: x).length := by simp [ascii]
    rw [prefix_append_congr hone []] at hp
    rw [List.append_nil] at hp
    exact h hp

theorem Reads.part_substituted {x : List UInt8} {nodes : List Node} {after : State}
    (hopen : ¬ ascii "(" <+: x) (hafter : after ≠ .casePattern)
    (h : Reads (substituted x) recalls levels (.body .commandSubstitution .normal after) 2 nodes
      (2 + x.length)) :
    Reads (substituted x) recalls (levels + 1) .part 0
      [.enclosed .substitution ⟨.quote, ascii "$(", 0⟩ nodes ⟨.quote, ascii ")", 2 + x.length⟩]
      (substituted x).length := by
  have hend : (substituted x).drop (2 + x.length) = ascii ")" := by
    rw [drop_substituted (Nat.le_refl _), List.drop_length]
    rfl
  have hlength : (substituted x).length = 2 + x.length + 1 := by
    simp [substituted, ascii]
    omega
  have hover : Delimiter.goesOn .commandSubstitution
      (.bare (substituted x) (2 + x.length) after) = false := by
    have hrest : (Scanner.bare (substituted x) (2 + x.length) after).rest = [0x29] := hend
    rw [Delimiter.goesOn, Scanner.role?_cons hrest]
    simpa [Scanner.bare, role] using hafter
  have hstart : Delimiter.commandSubstitution.opening <+: (substituted x).drop 0 := by
    rw [List.drop_zero, substituted, List.append_assoc]
    exact List.prefix_append _ _
  have hclose : Delimiter.commandSubstitution.closing <+: (substituted x).drop (2 + x.length) := by
    rw [hend]
    exact List.prefix_refl _
  have hconstruct := Reads.construct hstart (fun _ => rfl) h hover hclose
  rw [hend] at hconstruct
  rw [hlength]
  refine .refer trivial (.substitution ?_ hconstruct)
  exact not_expansion_substituted hopen

/-- A script reads alike on its own and as the body of a command substitution. -/
theorem tokenize_substitution {x : List UInt8} {nodes : List Node} (h : tokenize x = .ok nodes)
    (hretry : ∀ pos e, Event.retry pos e ∉ events x) (hopen : ¬ ascii "(" <+: x)
    (hclosed : Lexer.Closed x) (hcomment : ∀ l, nodes.getLast? = some (.leaf l) → l.kind ≠ .comment)
    (hlast : ∀ l, Node.lastLeafAll? nodes = some l → l.Complete)
    (hnesting : Node.nestingAll nodes ≤ 63) :
    tokenize (ascii "$(" ++ x ++ ascii ")") =
      .ok [.word [.enclosed .substitution ⟨.quote, ascii "$(", 0⟩ (Node.moveAll (2 + ·) nodes)
        ⟨.quote, ascii ")", 2 + x.length⟩]] := by
  obtain ⟨after, hafter, hbody⟩ := tokenize_body h hclosed
  have hpart := ((hbody.relevel hnesting).close_body hcomment hlast).part_substituted hopen hafter
  have hscript := hpart.script_of_part (by simp)
  refine tokenize_of_reads hscript ⟨⟨id, ⟨?_, ?_⟩, trivial⟩, trivial⟩
  · intro hr
    have hstart := (Node.spansAll_singleton.mp hpart.spans).retried hr
    exact not_expansion_substituted hopen hstart
  · rw [Node.allIn_moveAll]
    refine (events_retry h).imp ?_
    intro node hn hr
    obtain ⟨e, he⟩ := hn ((Node.retried_move _ _).mp hr)
    exact hretry _ _ he

/-- The parenthesis after a pattern closes no substitution. -/
theorem Lexer.closed_pattern : Closed (ascii "case a in b)") := by
  let stage (n : Nat) : Scanner :=
    ((fun lexer : Lexer => lexer.get.2)^[n] (.start (ascii "case a in b)"))).scanner
  let inv (t : Scanner) : Prop := ∃ n ≤ 8, t = stage n
  have step (lexer : Lexer) (h : inv lexer.scanner) : inv lexer.get.2.scanner := by
    obtain ⟨source, t, failed⟩ := lexer
    obtain ⟨n, hn, rfl⟩ := h
    refine ⟨min (n + 1) 8, Nat.min_le_right _ _, ?_⟩
    interval_cases n <;> rfl
  have stages (lexer : Lexer) (h : Reachable (ascii "case a in b)") lexer) : inv lexer.scanner :=
    h.induct ⟨0, Nat.zero_le _, rfl⟩ step
  constructor
  · rintro ⟨source, t, failed⟩ l h hget hk _
    obtain ⟨n, hn, rfl⟩ := stages _ h
    have hkind : (Lexer.mk source (stage n) failed).get.1.nodes.map
        (fun node => node.lastLeaf?.map Leaf.kind) = [some .operator] := by
      rw [hget]
      exact congrArg (fun kind => [some kind]) hk
    interval_cases n
    case «5» | «6» | «7» => rfl
    all_goals nomatch hkind
  · rintro ⟨source, t, failed⟩ h hpos
    obtain ⟨n, hn, rfl⟩ := stages _ h
    have hstage : (stage n).pos = 12 := hpos
    interval_cases n
    case «8» => exact fun h => nomatch (show State.normal = .casePattern from h)
    all_goals nomatch hstage

theorem tokenize_substitution_pattern :
    let nodes : List Node := [.leaf ⟨.keyword, ascii "case", 0⟩, .leaf ⟨.space, ascii " ", 4⟩,
      .word [.leaf ⟨.term, ascii "a", 5⟩], .leaf ⟨.space, ascii " ", 6⟩,
      .leaf ⟨.keyword, ascii "in", 7⟩, .leaf ⟨.space, ascii " ", 9⟩,
      .word [.leaf ⟨.term, ascii "b", 10⟩], .leaf ⟨.operator, ascii ")", 11⟩]
    tokenize (ascii "case a in b)") = .ok nodes ∧
    tokenize (ascii "$(" ++ ascii "case a in b)" ++ ascii ")") =
      .ok [.word [.enclosed .substitution ⟨.quote, ascii "$(", 0⟩ (Node.moveAll (2 + ·) nodes)
        ⟨.quote, ascii ")", 14⟩]] := by
  intro nodes
  have h : tokenize (ascii "case a in b)") = .ok nodes := by rfl
  have hevents : events (ascii "case a in b)") = [.transition .normal .caseSubject 4,
      .transition .caseSubject .caseIn 6, .transition .caseIn .casePattern 9,
      .transition .casePattern .normal 12] := by rfl
  have hretry : ∀ pos e, Event.retry pos e ∉ events (ascii "case a in b)") := by simp [hevents]
  refine ⟨h, tokenize_substitution h hretry (by decide) Lexer.closed_pattern ?_ ?_ (by decide)⟩
  · rintro _ ⟨⟩
    decide
  · rintro _ ⟨⟩
    exact ⟨nofun, nofun⟩

end ShellLex
