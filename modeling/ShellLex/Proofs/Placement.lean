import ShellLex.Proofs.Transitions
import ShellLex.Proofs.Tree
/-!
What may stand where. A place is a script, a word, quotes or arithmetic, and says which leaves and
which constructs may stand directly in it. A node that is read stands in its place, and so do all
nodes inside of it.
-/
namespace ShellLex

inductive Place where
  | script
  | word
  | quotes
  | arithmetic
  deriving DecidableEq, Repr

def Enclosure.place : Enclosure → Place
  | .quotes => .quotes
  | .substitution => .script
  | .arithmetic => .arithmetic

namespace Place

def kinds : Place → List Kind
  | script => [.space, .newLine, .comment, .operator, .keyword]
  | word | quotes => [.term, .escaped, .variable]
  | arithmetic => [.space, .newLine, .escaped, .variable, .term, .unknown]

def constructs : Place → List Delimiter
  | script => []
  | word => [.doubleQuote, .commandSubstitution, .arithmetic]
  | quotes => [.commandSubstitution, .arithmetic]
  | arithmetic => [.commandSubstitution, .arithmetic, .arithmeticGroup]

end Place

structure Delimiter.Delimits (d : Delimiter) (form : Enclosure) (opening closing : Leaf) :
    Prop where
  form : d.form = form
  opening_kind : opening.kind = .quote
  opening_data : opening.data = d.opening
  closing_kind : closing.kind = .quote
  closing_data : closing.data = d.closing

namespace Node

mutual

/-- `node` may stand in `place`, and so may all that is inside of it in the places there. -/
def Stands (place : Place) : Node → Prop
  | .leaf l => l.kind ∈ place.kinds
  | .word nodes => place = .script ∧ StandAll .word nodes
  | .enclosed form opening nodes closing =>
    (∃ d ∈ place.constructs, d.Delimits form opening closing) ∧ StandAll form.place nodes

def StandAll (place : Place) : List Node → Prop
  | [] => True
  | node :: nodes => node.Stands place ∧ StandAll place nodes

end

variable {place : Place} {nodes nodes' : List Node}

theorem standAll_iff : StandAll place nodes ↔ ∀ node ∈ nodes, node.Stands place := by
  induction nodes with
  | nil => simp [StandAll]
  | cons node nodes ih => rw [StandAll, ih, List.forall_mem_cons]

def children : Node → List Node
  | .leaf _ => []
  | .word nodes | .enclosed _ _ nodes _ => nodes

def isArithmetic : Node → Bool
  | .enclosed .arithmetic _ _ _ => true
  | _ => false

/-- Directly inside of `node`, no leaf is of the kind of delimiters, and none but arithmetic holds
bytes of unknown kind and groups in bare parentheses. -/
structure Exclusive (node : Node) : Prop where
  quote : ∀ l, .leaf l ∈ node.children → l.kind ≠ .quote
  unknown : ∀ l, .leaf l ∈ node.children → l.kind = .unknown → node.isArithmetic
  group : ∀ form opening nodes closing, .enclosed form opening nodes closing ∈ node.children →
    opening.data = ascii "(" → node.isArithmetic

theorem Stands.leaf_kind {l : Leaf} (h : (Node.leaf l).Stands place) :
    l.kind ≠ .quote ∧ (l.kind = .unknown → place = .arithmetic) := by
  have hk : l.kind ∈ place.kinds := h
  constructor
  · intro hq
    rw [hq] at hk
    revert hk
    cases place <;> decide
  · intro hu
    rw [hu] at hk
    revert hk
    cases place <;> decide

theorem Stands.group {form : Enclosure} {opening closing : Leaf}
    (h : (Node.enclosed form opening nodes closing).Stands place)
    (hd : opening.data = ascii "(") : place = .arithmetic := by
  obtain ⟨⟨d, hm, hdelims⟩, _⟩ := h
  have hopening : d.opening = ascii "(" := hdelims.opening_data.symm.trans hd
  revert hm hopening
  cases place <;> cases d <;> decide

/-- What is said of a place is said of the node that makes it. -/
theorem exclusive_of_children {node : Node} (h : StandAll place node.children)
    (hp : place = .arithmetic → node.isArithmetic) : node.Exclusive := by
  rw [standAll_iff] at h
  constructor
  · intro l hl
    exact (h _ hl).leaf_kind.1
  · intro l hl hu
    exact hp ((h _ hl).leaf_kind.2 hu)
  · intro form opening nodes closing hn hd
    exact hp ((h _ hn).group hd)

mutual

theorem Stands.exclusive {place : Place} {node : Node} (h : node.Stands place) :
    node.All Exclusive := by
  match node, h with
  | .leaf l, _ =>
    have none : StandAll .script (Node.leaf l).children := trivial
    exact exclusive_of_children none nofun
  | .word nodes, ⟨_, hn⟩ => exact ⟨exclusive_of_children hn nofun, StandAll.exclusive hn⟩
  | .enclosed form opening nodes closing, ⟨_, hn⟩ =>
    refine ⟨exclusive_of_children hn fun hp => ?_, StandAll.exclusive hn⟩
    cases form with
    | arithmetic => rfl
    | quotes | substitution => nomatch hp

theorem StandAll.exclusive {place : Place} {nodes : List Node} (h : StandAll place nodes) :
    AllIn Exclusive nodes := by
  match nodes, h with
  | [], _ => trivial
  | node :: nodes, ⟨hf, hn⟩ => exact ⟨hf.exclusive, StandAll.exclusive hn⟩

end

end Node

/-- Where the nodes that are read for a goal may stand. References are read alike in words, quotes
and arithmetic. -/
def Goal.Fills : Goal → Place → Prop
  | .element form _ _, place => place = form.place
  | .body d _ _, place => place = d.form.place
  | .script _ _, place => place = .script
  | .part, place | .parts, place | .word, place => place = .word
  | .reference, place | .expansion, place => place ≠ .script
  | .construct d, place => d ∈ place.constructs

variable {source : List UInt8} {recalls : Prop} {levels pos stop : Nat} {goal : Goal}
  {nodes : List Node} {place : Place}

theorem Goal.Expands.fills (h : goal.Expands) (hp : goal.Fills place) : place ≠ .script := by
  cases goal with
  | element form =>
    obtain rfl : place = form.place := hp
    cases form with
    | quotes | arithmetic => decide
    | substitution => exact h.elim
  | part =>
    obtain rfl : place = .word := hp
    decide
  | _ => exact h.elim

theorem Lexes.kind_mem {bytes : List UInt8} {kind : Kind} {size : Nat}
    (h : Lexes goal bytes kind size) (hp : goal.Fills place) : kind ∈ place.kinds := by
  cases h with
  | @blanks form _ _ _ hf =>
    obtain rfl : place = form.place := hp
    cases form with
    | quotes => exact absurd rfl hf
    | substitution | arithmetic => decide
  | escape hg =>
    have hne := hg.fills hp
    revert hne
    cases place <;> decide
  | dollar =>
    have hne : place ≠ .script := hp
    revert hne
    cases place <;> decide
  | _ =>
    subst hp
    decide

/-- References may stand wherever they are read. -/
theorem Place.mem_constructs (hp : place ≠ .script) {d : Delimiter}
    (hd : d = .commandSubstitution ∨ d = .arithmetic) : d ∈ place.constructs := by
  rcases hd with rfl | rfl
  · revert hp
    cases place <;> decide
  · revert hp
    cases place <;> decide

namespace Node

mutual

def Placed (p : Place → Leaf → Prop) (place : Place) : Node → Prop
  | .leaf l => p place l
  | .word nodes => place = .script ∧ PlacedAll p .word nodes
  | .enclosed form opening nodes closing =>
    (∃ d ∈ place.constructs, d.Delimits form opening closing) ∧ PlacedAll p form.place nodes

def PlacedAll (p : Place → Leaf → Prop) (place : Place) : List Node → Prop
  | [] => True
  | node :: nodes => node.Placed p place ∧ PlacedAll p place nodes

end

theorem placedAll_append {p : Place → Leaf → Prop} {nodes' : List Node} :
    PlacedAll p place (nodes ++ nodes') ↔ PlacedAll p place nodes ∧ PlacedAll p place nodes' := by
  induction nodes with
  | nil => simp [PlacedAll]
  | cons node nodes ih => simp only [List.cons_append, PlacedAll, ih, and_assoc]

mutual

theorem Placed.stands {place : Place} {node : Node}
    (h : node.Placed (fun place l => l.kind ∈ place.kinds) place) : node.Stands place := by
  match node, h with
  | .leaf _, h => exact h
  | .word nodes, ⟨hp, hn⟩ => exact ⟨hp, PlacedAll.standAll hn⟩
  | .enclosed _ _ nodes _, ⟨hd, hn⟩ => exact ⟨hd, PlacedAll.standAll hn⟩

theorem PlacedAll.standAll {place : Place} {nodes : List Node}
    (h : PlacedAll (fun place l => l.kind ∈ place.kinds) place nodes) : StandAll place nodes := by
  match nodes, h with
  | [], _ => trivial
  | node :: nodes, ⟨hf, hn⟩ => exact ⟨hf.stands, PlacedAll.standAll hn⟩

end

end Node

/-- `p` holds of what is lexed, in every place that its goal fills, and goes over from the only part
of a word to the keyword or operator that it is taken for instead. -/
structure Leaf.Settles (source : List UInt8) (p : Place → Leaf → Prop) : Prop where
  lexed {goal pos kind size place} (h : Lexes goal (source.drop pos) kind size)
    (hp : goal.Fills place) : p place ⟨kind, (source.drop pos).take size, pos⟩
  keyword {l} (h : p .word l) (hk : l.kind = .term) (hd : l.data ∈ Lexeme.keywords) :
    p .script { l with kind := .keyword }
  operator {l} (h : p .word l) (hk : l.kind = .term) (hd : l.data ∈ Lexeme.marks) :
    p .script { l with kind := .operator }

/-- The induction on a derivation, for every place that its goal fills. -/
theorem Reads.placedAll {p : Place → Leaf → Prop}
    (h : Reads source recalls levels goal pos nodes stop) (settles : Leaf.Settles source p)
    (hp : goal.Fills place) : Node.PlacedAll p place nodes := by
  induction h generalizing place with
  | lexeme h => exact ⟨settles.lexed h hp, trivial⟩
  | refer hg _ ih => exact ih (hg.fills hp)
  | quotes _ ih =>
    obtain rfl : place = .word := hp
    have hmem : Delimiter.doubleQuote ∈ Place.word.constructs := by decide
    exact ih hmem
  | group _ ih =>
    obtain rfl : place = .arithmetic := hp
    have hmem : Delimiter.arithmeticGroup ∈ Place.arithmetic.constructs := by decide
    exact ih hmem
  | substitution _ _ ih | retry _ _ ih => exact ih (Place.mem_constructs hp (Or.inl rfl))
  | arithmetic _ ih => exact ih (Place.mem_constructs hp (Or.inr rfl))
  | expand _ ih | recalled _ _ ih | word _ _ _ ih => exact ih hp
  | @construct _ d _ _ _ _ _ ho _ _ _ hc ih =>
    refine ⟨⟨⟨d, hp, rfl, rfl, ?_, rfl, ?_⟩, ih rfl⟩, trivial⟩
    · exact (List.prefix_iff_eq_take.mp ho).symm
    · exact (List.prefix_iff_eq_take.mp hc).symm
  | emptyBody | emptyScript | noParts => trivial
  | bodySnoc _ _ _ ih ihn | scriptSnoc _ _ ih ihn | partsSnoc _ _ ih ihn =>
    exact Node.placedAll_append.mpr ⟨ih hp, ihn hp⟩
  | command _ _ _ ih | subject _ ih | pattern _ _ ih =>
    obtain rfl : place = .script := hp
    exact ⟨⟨rfl, ih rfl⟩, trivial⟩
  | reserved hr _ ih =>
    obtain rfl : place = .script := hp
    obtain ⟨l, kind, rfl, hterm, hk, rfl⟩ := Scan.reserved?_eq_some hr
    have placed : p .word l := (ih rfl).1
    refine ⟨?_, trivial⟩
    rcases Scan.reservation?_eq_some hk with ⟨rfl, _, hd⟩ | ⟨rfl, _, hd⟩ | ⟨rfl, _, hd, _⟩
    · exact settles.operator placed hterm hd
    · exact settles.keyword placed hterm (by rw [hd]; decide)
    · exact settles.keyword placed hterm hd
  | esac he _ ih =>
    obtain rfl : place = .script := hp
    obtain ⟨hl, hd⟩ := Option.filter_eq_some_iff.mp he
    obtain ⟨rfl, hterm⟩ := Node.onlyLeaf?_eq_some hl
    have placed : p .word _ := (ih rfl).1
    refine ⟨settles.keyword placed hterm ?_, trivial⟩
    rw [of_decide_eq_true hd]
    decide

theorem Leaf.kind_settles (source : List UInt8) :
    Leaf.Settles source (fun place l => l.kind ∈ place.kinds) where
  lexed h hp := h.kind_mem hp
  keyword _ _ _ := (by decide : Kind.keyword ∈ Place.script.kinds)
  operator _ _ _ := (by decide : Kind.operator ∈ Place.script.kinds)

theorem Reads.standAll (h : Reads source recalls levels goal pos nodes stop)
    (hp : goal.Fills place) : Node.StandAll place nodes :=
  (h.placedAll (Leaf.kind_settles source) hp).standAll

namespace Lexer

/-- Whatever was called before, a node that is returned may stand in a script, and every node inside
of it in its place. -/
theorem get_stands {lexer after : Lexer} {node : Node} (h : Reachable source lexer)
    (hget : lexer.get = (.ok (some node), after)) :
    node.Stands .script ∧ node.All Node.Exclusive := by
  rcases get_cases h.fits with hc | ⟨found, s, hc, hr⟩ | ⟨e, s, hc, _⟩
  · simp [hc] at hget
  · obtain rfl : found = node := by simpa [hc] using congrArg Prod.fst hget
    have stands := (hr.reads.standAll rfl).1
    exact ⟨stands, stands.exclusive⟩
  · simp [hc] at hget

/-- Arithmetic in quotes, with a group and an unknown byte, where a substitution was tried as
arithmetic before. -/
theorem get_stands_quotes :
    let sum := Node.enclosed .arithmetic ⟨.quote, ascii "$((", 1⟩
      [.enclosed .arithmetic ⟨.quote, ascii "(", 4⟩ [.leaf ⟨.unknown, ascii "@", 5⟩]
        ⟨.quote, ascii ")", 6⟩] ⟨.quote, ascii "))", 7⟩
    let command := Node.enclosed .substitution ⟨.quote, ascii "$(", 9⟩
      [.leaf ⟨.operator, ascii "(", 11⟩, .word [.leaf ⟨.term, ascii "a", 12⟩],
        .leaf ⟨.operator, ascii ";", 13⟩] ⟨.quote, ascii ")", 14⟩
    let node := Node.word [.enclosed .quotes ⟨.quote, ascii "\"", 0⟩ [sum, command]
      ⟨.quote, ascii "\"", 15⟩]
    (start (ascii "\"$(((@)))$((a;)\"")).get.1 = .ok (some node) ∧
      node.Stands .script ∧ node.All Node.Exclusive := by
  intro sum command node
  have hnode : (start (ascii "\"$(((@)))$((a;)\"")).get.1 = .ok (some node) := by rfl
  exact ⟨hnode, get_stands .start (Prod.ext hnode rfl)⟩

end Lexer

end ShellLex
