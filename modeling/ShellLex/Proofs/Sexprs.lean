import ShellLex.Node.Sexpr
import ShellLex.Proofs.Literals
import ShellLex.Proofs.Placement
import ShellLex.Proofs.Views
/-!
What s-expressions tell. The text of a tree tells all of it but offsets and delimiters. The place
of a construct tells its delimiters, except where arithmetic stands in arithmetic: a group in bare
parentheses has the same head as an expansion. So the source is told up to the inner openings.
-/
namespace ShellLex

namespace Node

mutual

/-- The nodes differ in offsets, delimiters and what is lost in decoding, and in nothing else. -/
def Resembles : Node → Node → Prop
  | .leaf l, .leaf l' => l.kind = l'.kind ∧ Utf8.lossy l.data = Utf8.lossy l'.data
  | .word nodes, .word nodes' => ResembleAll nodes nodes'
  | .enclosed form _ nodes _, .enclosed form' _ nodes' _ =>
    form = form' ∧ ResembleAll nodes nodes'
  | _, _ => False

def ResembleAll : List Node → List Node → Prop
  | [], [] => True
  | node :: nodes, node' :: nodes' => node.Resembles node' ∧ ResembleAll nodes nodes'
  | _, _ => False

end

def Legible : Node → Prop
  | .leaf l => Utf8.Valid l.data
  | _ => True

mutual

/-- The opening delimiters of the arithmetic that stands directly in arithmetic, in order. -/
def innerOpenings (place : Place) : Node → List (List UInt8)
  | .leaf _ => []
  | .word nodes => innerOpeningsAll .word nodes
  | .enclosed form opening nodes _ =>
    (if place = .arithmetic ∧ form = .arithmetic then [opening.data] else []) ++
      innerOpeningsAll form.place nodes

def innerOpeningsAll (place : Place) : List Node → List (List UInt8)
  | [] => []
  | node :: nodes => node.innerOpenings place ++ innerOpeningsAll place nodes

end

/-- The place and the form of a construct tell its delimiters, except for arithmetic in arithmetic,
where the opening one has to. -/
theorem delimiter_unique {place : Place} {d d' : Delimiter} (h : d ∈ place.constructs)
    (h' : d' ∈ place.constructs) (hform : d.form = d'.form)
    (hinner : place = .arithmetic → d.form = .arithmetic → d.opening = d'.opening) : d = d' := by
  revert h h' hform hinner
  cases place <;> cases d <;> cases d' <;> decide

mutual

theorem Resembles.innerOpenings_length {node node' : Node} (h : node.Resembles node')
    (place : Place) : (node.innerOpenings place).length = (node'.innerOpenings place).length := by
  match node, node', h with
  | .leaf _, .leaf _, _ => rfl
  | .word nodes, .word nodes', h => exact ResembleAll.innerOpenings_length h .word
  | .enclosed form _ nodes _, .enclosed _ _ nodes' _, ⟨rfl, h⟩ =>
    have inside := ResembleAll.innerOpenings_length h form.place
    simp only [innerOpenings, List.length_append, inside, Nat.add_right_cancel_iff]
    split <;> rfl

theorem ResembleAll.innerOpenings_length {nodes nodes' : List Node} (h : ResembleAll nodes nodes')
    (place : Place) :
    (innerOpeningsAll place nodes).length = (innerOpeningsAll place nodes').length := by
  match nodes, nodes', h with
  | [], [], _ => rfl
  | node :: nodes, node' :: nodes', ⟨hnode, hnodes⟩ =>
    rw [innerOpeningsAll, innerOpeningsAll, List.length_append, List.length_append,
      hnode.innerOpenings_length place, ResembleAll.innerOpenings_length hnodes place]

end

mutual

/-- Nodes in the same place that differ in nothing that is written have the same text. -/
theorem Resembles.text_eq {place : Place} {node node' : Node} (h : node.Resembles node')
    (hs : node.Stands place) (hs' : node'.Stands place) (hl : node.All Legible)
    (hl' : node'.All Legible) (ho : node.innerOpenings place = node'.innerOpenings place) :
    node.text = node'.text := by
  match node, node', h, hs, hs', hl, hl' with
  | .leaf _, .leaf _, h, _, _, hl, hl' => exact hl.eq_of_lossy hl' h.2
  | .word nodes, .word nodes', h, hs, hs', hl, hl' =>
    exact ResembleAll.textAll_eq h hs.2 hs'.2 hl.2 hl'.2 ho
  | .enclosed form opening nodes closing, .enclosed _ opening' nodes' closing', ⟨rfl, h⟩,
      ⟨⟨d, hd, hdelims⟩, hs⟩, ⟨⟨d', hd', hdelims'⟩, hs'⟩, ⟨_, hl⟩, ⟨_, hl'⟩ =>
    obtain ⟨hopening, hinside⟩ := List.append_inj' ho (h.innerOpenings_length form.place)
    obtain rfl : d = d' := by
      refine delimiter_unique hd hd' (hdelims.form.trans hdelims'.form.symm) fun hp hf => ?_
      have inner : place = .arithmetic ∧ form = .arithmetic := ⟨hp, hdelims.form ▸ hf⟩
      rw [if_pos inner, if_pos inner] at hopening
      rw [← hdelims.opening_data, ← hdelims'.opening_data]
      exact (List.cons.inj hopening).1
    rw [text, text, ResembleAll.textAll_eq h hs hs' hl hl' hinside, hdelims.opening_data,
      hdelims'.opening_data, hdelims.closing_data, hdelims'.closing_data]

theorem ResembleAll.textAll_eq {place : Place} {nodes nodes' : List Node}
    (h : ResembleAll nodes nodes') (hs : StandAll place nodes) (hs' : StandAll place nodes')
    (hl : AllIn Legible nodes) (hl' : AllIn Legible nodes')
    (ho : innerOpeningsAll place nodes = innerOpeningsAll place nodes') :
    textAll nodes = textAll nodes' := by
  match nodes, nodes', h, hs, hs', hl, hl' with
  | [], [], _, _, _, _, _ => rfl
  | node :: nodes, node' :: nodes', ⟨hnode, hnodes⟩, ⟨hf, hs⟩, ⟨hf', hs'⟩, ⟨hn, hl⟩, ⟨hn', hl'⟩ =>
    obtain ⟨hfirst, hrest⟩ := List.append_inj ho (hnode.innerOpenings_length place)
    rw [textAll, textAll, hnode.text_eq hf hf' hn hn' hfirst,
      ResembleAll.textAll_eq hnodes hs hs' hl hl' hrest]

end

end Node

namespace Sexpr

variable {r r' : List Char}

/-- The names of kinds begin with a capital, and the heads of composites do not. -/
theorem kind_name_initial (kind : Kind) :
    ∃ c rest, kind.name.toList = c :: rest ∧ c.isUpper = true := by
  cases kind <;> exact ⟨_, _, rfl, by decide⟩

theorem kind_name_ne (kind : Kind) {head : List Char} (hh : head.head?.any Char.isUpper = false)
    (hne : head ≠ []) {t t' : List Char} : kind.name.toList ++ t ≠ head ++ t' := by
  obtain ⟨c, rest, hname, hc⟩ := kind_name_initial kind
  obtain ⟨c', head, rfl⟩ := List.exists_cons_of_ne_nil hne
  intro heq
  rw [hname, List.cons_append, List.cons_append] at heq
  obtain ⟨rfl, _⟩ := List.cons.inj heq
  simp [hc] at hh

theorem leaf_ne_word {l : Leaf} {nodes : List Node} :
    leaf l ++ r ≠ node (.word nodes) ++ r' := by
  simp only [leaf, node, List.cons_append, List.append_assoc, ne_eq, List.cons.injEq, true_and]
  exact kind_name_ne l.kind (by decide) (by decide)

theorem leaf_ne_enclosed {l opening closing : Leaf} {form : Enclosure} {nodes : List Node} :
    leaf l ++ r ≠ node (.enclosed form opening nodes closing) ++ r' := by
  simp only [leaf, node, List.cons_append, List.append_assoc, ne_eq, List.cons.injEq, true_and]
  exact kind_name_ne l.kind (by cases form <;> decide) (by cases form <;> decide)

theorem word_ne_enclosed {nodes nodes' : List Node} {form : Enclosure} {opening closing : Leaf} :
    node (.word nodes) ++ r ≠ node (.enclosed form opening nodes' closing) ++ r' := by
  cases form <;> simp [node, head]

/-- The heads of enclosures differ in their first letters. -/
theorem head_inj {form form' : Enclosure} {t t' : List Char}
    (h : (head form).toList ++ t = (head form').toList ++ t') : form = form' ∧ t = t' := by
  cases form <;> cases form' <;> simp_all [head]

theorem leaf_resembles {l l' : Leaf} (h : leaf l ++ r = leaf l' ++ r') :
    (Node.leaf l).Resembles (.leaf l') ∧ r = r' := by
  simp only [leaf, List.cons_append, List.append_assoc, List.nil_append, List.cons.injEq,
    true_and] at h
  obtain ⟨hname, _, htail⟩ := Text.append_mark_inj l.kind.blank_notMem_name
    l'.kind.blank_notMem_name h
  obtain ⟨htext, hr⟩ := Text.literalWith_delimits Text.isHidden _ _ _ _ htail
  exact ⟨⟨Kind.name_inj hname, htext⟩, (List.cons.inj hr).2⟩

mutual

/-- What is written of a node tells the node, whatever follows. -/
theorem node_resembles (node node' : Node) {r r' : List Char}
    (h : Sexpr.node node ++ r = Sexpr.node node' ++ r') : node.Resembles node' ∧ r = r' := by
  match node, node' with
  | .leaf l, .leaf l' => exact leaf_resembles h
  | .word nodes, .word nodes' =>
    simp only [Sexpr.node, List.cons_append, List.append_assoc, List.nil_append,
      List.append_cancel_left_eq, List.cons.injEq, true_and] at h
    exact members_resemble nodes nodes' h
  | .enclosed form _ nodes _, .enclosed form' _ nodes' _ =>
    simp only [Sexpr.node, List.cons_append, List.append_assoc, List.nil_append,
      List.cons.injEq, true_and] at h
    obtain ⟨rfl, hmembers⟩ := head_inj h
    obtain ⟨hnodes, hr⟩ := members_resemble nodes nodes' hmembers
    exact ⟨⟨rfl, hnodes⟩, hr⟩
  | .leaf l, .word nodes => exact absurd h leaf_ne_word
  | .leaf l, .enclosed _ _ nodes _ => exact absurd h leaf_ne_enclosed
  | .word nodes, .leaf l => exact absurd h.symm leaf_ne_word
  | .enclosed _ _ nodes _, .leaf l => exact absurd h.symm leaf_ne_enclosed
  | .word nodes, .enclosed _ _ nodes' _ => exact absurd h word_ne_enclosed
  | .enclosed _ _ nodes' _, .word nodes => exact absurd h.symm word_ne_enclosed

theorem members_resemble (nodes nodes' : List Node) {r r' : List Char}
    (h : members nodes ++ ')' :: r = members nodes' ++ ')' :: r') :
    Node.ResembleAll nodes nodes' ∧ r = r' := by
  match nodes, nodes' with
  | [], [] => exact ⟨trivial, (List.cons.inj h).2⟩
  | node :: nodes, node' :: nodes' =>
    simp only [members, List.cons_append, List.append_assoc, List.cons.injEq, true_and] at h
    obtain ⟨hnode, htail⟩ := node_resembles node node' h
    obtain ⟨hnodes, hr⟩ := members_resemble nodes nodes' htail
    exact ⟨⟨hnode, hnodes⟩, hr⟩
  | [], node' :: nodes' => simp [members] at h
  | node :: nodes, [] => simp [members] at h

end

theorem resembleAll_of_sexprs {nodes nodes' : List Node} (h : sexprs nodes = sexprs nodes') :
    Node.ResembleAll nodes nodes' := by
  induction nodes generalizing nodes' with
  | nil =>
    obtain rfl : nodes' = [] := by simpa [sexprs] using h.symm
    trivial
  | cons node nodes ih =>
    cases nodes' with
    | nil => simp [sexprs] at h
    | cons node' nodes' =>
      obtain ⟨hnode, hnodes⟩ := List.cons.inj h
      have written : Sexpr.node node ++ [] = Sexpr.node node' ++ [] := by
        rw [String.ofList_injective hnode]
      exact ⟨(node_resembles node node' written).1, ih hnodes⟩

end Sexpr

/-- S-expressions tell the source up to how arithmetic is opened in arithmetic, and all of it where
no arithmetic stands in arithmetic. -/
theorem tokenize_sexprs {a b : List UInt8} {nodes nodes' : List Node} (ha : tokenize a = .ok nodes)
    (hb : tokenize b = .ok nodes') (hl : Node.AllIn Node.Legible nodes)
    (hl' : Node.AllIn Node.Legible nodes') (h : sexprs nodes = sexprs nodes') :
    (a = b ↔ Node.innerOpeningsAll .script nodes = Node.innerOpeningsAll .script nodes') ∧
      (Node.innerOpeningsAll .script nodes = [] → a = b) := by
  obtain ⟨_, reads⟩ := tokenize_reads ha
  obtain ⟨_, reads'⟩ := tokenize_reads hb
  have resemble := Sexpr.resembleAll_of_sexprs h
  have same : Node.innerOpeningsAll .script nodes = Node.innerOpeningsAll .script nodes' →
      a = b := by
    intro ho
    rw [← textAll_of_tokenize ha, ← textAll_of_tokenize hb]
    exact resemble.textAll_eq (reads.standAll rfl) (reads'.standAll rfl) hl hl' ho
  refine ⟨⟨?_, same⟩, ?_⟩
  · rintro rfl
    rw [Except.ok.inj (ha.symm.trans hb)]
  · intro hn
    have hlength := resemble.innerOpenings_length .script
    rw [hn, List.length_nil, eq_comm, List.length_eq_zero_iff] at hlength
    exact same (hn.trans hlength.symm)

def Node.nested (opening closing : List UInt8) : List Node :=
  [.word [.enclosed .arithmetic ⟨.quote, ascii "$((", 0⟩
    [.enclosed .arithmetic ⟨.quote, opening, 3⟩
      [.leaf ⟨.variable, ascii "1", 3 + opening.length⟩] ⟨.quote, closing, 4 + opening.length⟩]
    ⟨.quote, ascii "))", 4 + opening.length + closing.length⟩]]

theorem Node.nested_legible (opening closing : List UInt8) :
    AllIn Legible (nested opening closing) := by
  have one : Utf8.Valid (ascii "1") := ⟨['1'], by decide⟩
  exact ⟨⟨trivial, ⟨trivial, ⟨trivial, one, trivial⟩, trivial⟩, trivial⟩, trivial⟩

/-- A group and an expansion of its own are written alike, and only the openings differ. -/
theorem tokenize_sexprs_nested :
    let group := Node.nested (ascii "(") (ascii ")")
    let expansion := Node.nested (ascii "$((") (ascii "))")
    tokenize (ascii "$(((1)))") = .ok group ∧ tokenize (ascii "$(($((1))))") = .ok expansion ∧
      sexprs group = sexprs expansion ∧
      Node.innerOpeningsAll .script group ≠ Node.innerOpeningsAll .script expansion := by
  intro group expansion
  have hgroup : tokenize (ascii "$(((1)))") = .ok group := by rfl
  have hexpansion : tokenize (ascii "$(($((1))))") = .ok expansion := by rfl
  have same : sexprs group = sexprs expansion := by rfl
  refine ⟨hgroup, hexpansion, same, fun ho => ?_⟩
  have sexprs := tokenize_sexprs hgroup hexpansion (Node.nested_legible _ _)
    (Node.nested_legible _ _) same
  exact absurd (sexprs.1.mpr ho) (by decide)

/-- As one head is there for both, s-expressions alone do not tell the source. -/
theorem not_sexprs_injective :
    ¬ ∀ a b nodes nodes', tokenize a = .ok nodes → tokenize b = .ok nodes' →
      Node.AllIn Node.Legible nodes → Node.AllIn Node.Legible nodes' →
      sexprs nodes = sexprs nodes' → a = b := by
  intro h
  have same := h (ascii "$(((1)))") (ascii "$(($((1))))")
    (Node.nested (ascii "(") (ascii ")")) (Node.nested (ascii "$((") (ascii "))")) rfl rfl
    (Node.nested_legible _ _) (Node.nested_legible _ _) rfl
  exact absurd same (by decide)

end ShellLex
