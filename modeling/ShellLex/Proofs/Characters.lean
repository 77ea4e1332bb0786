import Mathlib.Data.List.Chain
import ShellLex.Proofs.Boundaries
import ShellLex.Proofs.Lexemes
import ShellLex.Proofs.Subjects
import ShellLex.Proofs.Views
/-!
Characters in leaves. Reading goes by bytes, but what it cuts a text at is of ASCII nearly
everywhere: only a dollar, a backslash and the elements of arithmetic take one byte of whatever
follows. Elsewhere no character is cut, and no element of a script ends inside of one.
-/
namespace ShellLex

open Utf8 (Boundary)

variable {text : List Char} {source data rest : List UInt8} {pos start stop : Nat}

theorem ascii_of_role {b : UInt8} (h : role b ≠ .plain) : b.toNat < 0x80 := by
  unfold role at h
  split at h <;> first | decide | exact absurd rfl h

theorem ascii_of_isBlank {b : UInt8} (h : isBlank b) : b.toNat < 0x80 := by
  refine ascii_of_role fun hr => ?_
  simp [isBlank, hr] at h

theorem ascii_of_isLetter {b : UInt8} (h : isLetter b) : b.toNat < 0x80 := by
  simp only [isLetter, Bool.or_eq_true, Bool.and_eq_true, decide_eq_true_eq,
    UInt8.le_iff_toNat_le, UInt8.reduceToNat] at h
  omega

theorem getElem?_of_drop {b : UInt8} (h : source.drop pos = data ++ b :: rest) :
    source[pos + data.length]? = some b := by
  rw [← List.getElem?_drop, h, List.getElem?_append_right (Nat.le_refl _), Nat.sub_self]
  rfl

def IsAscii (bytes : List UInt8) : Prop := bytes.all (·.toNat < 0x80)

instance (bytes : List UInt8) : Decidable (IsAscii bytes) :=
  inferInstanceAs (Decidable (bytes.all _ = true))

theorem isAscii_iff {bytes : List UInt8} : IsAscii bytes ↔ ∀ b ∈ bytes, b.toNat < 0x80 := by
  simp [IsAscii]

theorem isAscii_append {bytes bytes' : List UInt8} :
    IsAscii (bytes ++ bytes') ↔ IsAscii bytes ∧ IsAscii bytes' := by
  simp only [isAscii_iff, List.forall_mem_append]

/-- Bytes of ASCII end at a boundary. -/
theorem boundary_of_ascii (hd : (Utf8.encode text).drop pos = data ++ rest) (hne : data ≠ [])
    (ha : IsAscii data) : Boundary text (pos + data.length) := by
  obtain ⟨before, last, rfl⟩ : ∃ before last, data = before ++ [last] :=
    ⟨_, _, (List.dropLast_concat_getLast hne).symm⟩
  rw [List.append_assoc] at hd
  have after := Boundary.after_ascii (getElem?_of_drop hd) (isAscii_iff.mp ha last (by simp))
  rwa [List.length_append, List.length_singleton, ← Nat.add_assoc]

/-- So do any bytes before one of ASCII or at the end. -/
theorem boundary_of_next (hd : (Utf8.encode text).drop pos = data ++ rest) (hne : data ≠ [])
    (hn : ∀ b, rest.head? = some b → b.toNat < 0x80) : Boundary text (pos + data.length) := by
  cases rest with
  | nil =>
    have hsize := congrArg List.length hd
    have hpos := List.length_pos_iff.mpr hne
    rw [List.append_nil, List.length_drop] at hsize
    rw [show pos + data.length = (Utf8.encode text).length by omega]
    exact .length text
  | cons b rest => exact .at_ascii (getElem?_of_drop hd) (hn b rfl)

/-- Right after a dollar or a backslash there is no character of several bytes. -/
def Sheltered (text : List Char) : Prop :=
  text.IsChain fun c d => c ∈ ['$', '\\'] → d.toNat < 0x80

instance (text : List Char) : Decidable (Sheltered text) :=
  inferInstanceAs (Decidable (text.IsChain _))

theorem Sheltered.follower {b c : UInt8} (h : Sheltered text)
    (hd : (Utf8.encode text).drop pos = b :: c :: rest) (hb : b ∈ ascii "$\\") :
    c.toNat < 0x80 := by
  have small : b.toNat < 0x80 := isAscii_iff.mp (by decide : IsAscii (ascii "$\\")) b hb
  have known : (ascii "$\\").map (Char.ofNat ·.toNat) = ['$', '\\'] := by decide
  have hbyte : (Utf8.encode text)[pos]? = some b := by
    rw [← List.head?_drop, hd, List.head?_cons]
  obtain ⟨before, char, after, rfl, rfl, hchar⟩ := Utf8.char_of_ascii hbyte small
  rw [Utf8.encode_append, List.drop_left, Utf8.encode_cons,
    Utf8.utf8EncodeChar_ascii (hchar ▸ small)] at hd
  have hafter : Utf8.encode after = c :: rest := (List.cons.inj hd).2
  cases after with
  | nil => nomatch hafter
  | cons next after =>
    have hnext : next.toNat < 0x80 := by
      refine (List.isChain_append_cons_cons.mp h).2.1 ?_
      rw [← Char.ofNat_toNat char, hchar, ← known]
      exact List.mem_map_of_mem hb
    rw [Utf8.encode_cons, Utf8.utf8EncodeChar_ascii hnext] at hafter
    rw [← (List.cons.inj hafter).1, Utf8.toNat_ofNat (by omega)]
    exact hnext

namespace Lexeme

variable {accept : UInt8 → Bool} {kind : Kind} {place : Place}

theorem Run.boundary (run : Run accept data rest)
    (hd : (Utf8.encode text).drop pos = data ++ rest)
    (ha : ∀ b, accept b = false → b.toNat < 0x80) : Boundary text (pos + data.length) :=
  boundary_of_next hd run.nonempty fun b hb => ha b (run.maximal b hb)

theorem Run.boundary_ascii (run : Run accept data rest)
    (hd : (Utf8.encode text).drop pos = data ++ rest)
    (ha : ∀ b, accept b = true → b.toNat < 0x80) : Boundary text (pos + data.length) :=
  boundary_of_ascii hd run.nonempty (isAscii_iff.mpr fun b hb => ha b (run.accepted b hb))

/-- What stands directly in a script ends at a boundary. -/
theorem Shape.boundary_script (h : Shape place kind data rest) (hk : kind ∈ Place.script.kinds)
    (hd : (Utf8.encode text).drop pos = data ++ rest) : Boundary text (pos + data.length) := by
  cases kind with
  | space => exact Run.boundary_ascii h hd fun b hb => ascii_of_isBlank hb
  | newLine =>
    obtain rfl : data = ascii "\n" := h
    exact boundary_of_ascii hd (by decide) (by decide)
  | comment =>
    refine Run.boundary h.2 hd fun b hb => ascii_of_role fun hr => ?_
    simp [hr] at hb
  | operator =>
    have narrow : ∀ word ∈ operators ++ marks, word ≠ [] ∧ IsAscii word := by decide
    exact boundary_of_ascii hd (narrow data h.mem).1 (narrow data h.mem).2
  | keyword =>
    refine Run.boundary h.2 hd fun b hb => ascii_of_role fun hr => ?_
    simp [isPlain, hr] at hb
  | _ => exact absurd hk (by decide)

/-- In a sheltered text, what stands anywhere but in arithmetic does as well. -/
theorem Shape.boundary (h : Shape place kind data rest) (hp : place ≠ .arithmetic)
    (sheltered : Sheltered text) (hd : (Utf8.encode text).drop pos = data ++ rest) :
    Boundary text (pos + data.length) := by
  match kind, h with
  | .space, h | .newLine, h | .comment, h | .operator, h | .keyword, h =>
    exact h.boundary_script (by decide) hd
  | .escaped, Or.inl ⟨b, hdata⟩ =>
    rw [hdata] at hd ⊢
    have hb := sheltered.follower hd (by decide)
    exact boundary_of_ascii hd (by simp)
      (isAscii_append.mpr ⟨by decide, isAscii_iff.mpr (List.forall_mem_singleton.mpr hb)⟩)
  | .escaped, Or.inr ⟨hdata, _⟩ =>
    rw [hdata] at hd ⊢
    exact boundary_of_ascii hd (by decide) (by decide)
  | .variable, h =>
    cases h.resolve_right fun ha => hp ha.1 with
    | bare => exact boundary_of_ascii hd (by decide) (by decide)
    | short =>
      have hb := sheltered.follower hd (by decide)
      exact boundary_of_ascii hd (by simp)
        (isAscii_append.mpr ⟨by decide, isAscii_iff.mpr (List.forall_mem_singleton.mpr hb)⟩)
    | name run =>
      exact boundary_of_ascii hd (by simp [run.nonempty]) (isAscii_append.mpr
        ⟨by decide, isAscii_iff.mpr fun b hb => ascii_of_isLetter (run.accepted b hb)⟩)
  | .term, h =>
    cases place with
    | script => exact h.elim
    | word =>
      rcases h with hm | run
      · have narrow : ∀ word ∈ marks, word ≠ [] ∧ IsAscii word := by decide
        exact boundary_of_ascii hd (narrow data hm).1 (narrow data hm).2
      · refine Run.boundary run hd fun b hb => ascii_of_role fun hr => ?_
        simp [isPlain, hr] at hb
    | quotes =>
      refine Run.boundary h hd fun b hb => ascii_of_role fun hr => ?_
      simp [Scan.isQuotable, hr] at hb
    | arithmetic => exact absurd rfl hp
  | .unknown, h => exact absurd h.1 hp
  | .quote, h => exact h.elim

end Lexeme

theorem Leaf.Exact.drop_eq {l : Leaf} (h : l.Exact source) :
    ∃ rest, source.drop l.pos = l.data ++ rest := by
  refine ⟨(source.drop l.pos).drop (l.stop - l.pos), ?_⟩
  rw [h.data, List.extract_eq_take_drop, List.take_append_drop]

theorem Leaf.Exact.valid {l : Leaf} (h : l.Exact (Utf8.encode text)) (hpos : Boundary text l.pos)
    (hstop : Boundary text l.stop) : Utf8.Valid l.data := by
  obtain ⟨part, _, hpart⟩ := hpos.extract hstop
  rw [h.data, hpart]
  exact Utf8.valid_encode part

theorem Leaf.Exact.boundary_delimiter {l : Leaf} {d : Delimiter} (h : l.Exact (Utf8.encode text))
    (hd : l.data = d.opening ∨ l.data = d.closing) : Boundary text l.stop := by
  obtain ⟨rest, hrest⟩ := h.drop_eq
  refine boundary_of_ascii hrest h.nonempty ?_
  rcases hd with hd | hd
  · rw [hd]
    cases d <;> decide
  · rw [hd]
    cases d <;> decide

/-- Without `$((`, nothing but arithmetic has arithmetic in it. -/
theorem Delimiter.Delimits.place_ne {d : Delimiter} {form : Enclosure} {opening closing : Leaf}
    {place : Place} (h : d.Delimits form opening closing) (hm : d ∈ place.constructs)
    (hp : place ≠ .arithmetic) (ho : opening.Exact source) (hx : ¬ ascii "$((" <:+: source) :
    form.place ≠ .arithmetic := by
  obtain ⟨rest, hrest⟩ := ho.drop_eq
  obtain rfl := h.form
  cases d with
  | doubleQuote | commandSubstitution => decide
  | arithmetic =>
    refine absurd ?_ hx
    rw [h.opening_data] at hrest
    exact (List.IsPrefix.isInfix ⟨rest, hrest.symm⟩).trans (List.drop_suffix _ _).isInfix
  | arithmeticGroup =>
    revert hm hp
    cases place <;> decide

namespace Node

mutual

/-- What begins at a boundary cuts no character and ends at a boundary. -/
theorem Placed.whole {place : Place} {node : Node} {start stop : Nat}
    (hx : ¬ ascii "$((" <:+: Utf8.encode text) (sheltered : Sheltered text)
    (hf : node.Placed (Leaf.Formed (Utf8.encode text)) place)
    (hs : node.Spans (Utf8.encode text) start stop) (hp : place ≠ .arithmetic)
    (hb : Boundary text start) :
    Boundary text stop ∧ ∀ l ∈ node.leaves, Utf8.Valid l.data := by
  match node, hf, hs with
  | .leaf l, ⟨rest, hd, hshape⟩, ⟨he, hpos, hstop⟩ =>
    subst hpos hstop
    have hend : Boundary text l.stop := hshape.boundary hp sheltered hd
    refine ⟨hend, ?_⟩
    rw [leaves, List.forall_mem_singleton]
    exact he.valid hb hend
  | .word nodes, ⟨_, hn⟩, ⟨_, hspans⟩ =>
    rw [leaves]
    exact PlacedAll.whole hx sheltered hn hspans (by decide) hb
  | .enclosed form opening nodes closing, ⟨⟨d, hm, hdelims⟩, hn⟩,
      ⟨ho, hpos, hspans, hc, hstop⟩ =>
    subst hpos hstop
    have hopening : Boundary text opening.stop :=
      ho.boundary_delimiter (Or.inl hdelims.opening_data)
    have hclosing : Boundary text closing.stop :=
      hc.boundary_delimiter (Or.inr hdelims.closing_data)
    have hplace := hdelims.place_ne hm hp ho hx
    obtain ⟨hbody, hleaves⟩ := PlacedAll.whole hx sheltered hn hspans hplace hopening
    refine ⟨hclosing, ?_⟩
    rw [leaves, List.forall_mem_cons, List.forall_mem_append, List.forall_mem_singleton]
    exact ⟨ho.valid hb hopening, hleaves, hc.valid hbody hclosing⟩

theorem PlacedAll.whole {place : Place} {nodes : List Node} {start stop : Nat}
    (hx : ¬ ascii "$((" <:+: Utf8.encode text) (sheltered : Sheltered text)
    (hf : PlacedAll (Leaf.Formed (Utf8.encode text)) place nodes)
    (hs : SpansAll (Utf8.encode text) nodes start stop) (hp : place ≠ .arithmetic)
    (hb : Boundary text start) :
    Boundary text stop ∧ ∀ l ∈ leavesAll nodes, Utf8.Valid l.data := by
  match nodes, hf, hs with
  | [], _, hs =>
    obtain rfl : start = stop := hs
    exact ⟨hb, nofun⟩
  | node :: nodes, ⟨hfirst, hrest⟩, ⟨middle, hspans, hn⟩ =>
    obtain ⟨hmiddle, hleaves⟩ := Placed.whole hx sheltered hfirst hspans hp hb
    obtain ⟨hend, hleaves'⟩ := PlacedAll.whole hx sheltered hrest hn hp hmiddle
    refine ⟨hend, ?_⟩
    rw [leavesAll, List.forall_mem_append]
    exact ⟨hleaves, hleaves'⟩

end

end Node

/-- Without arithmetic, the leaves of a sheltered text are texts. -/
theorem valid_of_tokenize {nodes : List Node} (hx : ¬ ascii "$((" <:+: Utf8.encode text)
    (sheltered : Sheltered text) (h : tokenize (Utf8.encode text) = .ok nodes) :
    ∀ l ∈ Node.leavesAll nodes, Utf8.Valid l.data := by
  obtain ⟨_, reads⟩ := tokenize_reads h
  have formed : Node.PlacedAll (Leaf.Formed (Utf8.encode text)) .script nodes :=
    reads.placedAll (Leaf.formed_settles _) rfl
  exact (Node.PlacedAll.whole hx sheltered formed reads.spans (by decide) (.zero text)).2

namespace Reads

variable {recalls : Prop} {levels : Nat} {before after : State} {node : Node} {nodes : List Node}

/-- Whatever it consists of, a word ends at a boundary. -/
theorem word_boundary (h : Reads (Utf8.encode text) recalls levels .word start nodes stop) :
    Boundary text stop := by
  obtain ⟨_, hne, hends⟩ := h.word_cases
  have hle := Node.SpansAll.stop_le hne h.spans
  cases hr : (Utf8.encode text).drop stop with
  | nil =>
    rw [List.drop_eq_nil_iff] at hr
    rw [Nat.le_antisymm hle hr]
    exact .length text
  | cons b bytes =>
    have hbyte : (Utf8.encode text)[stop]? = some b := by
      rw [← List.head?_drop, hr, List.head?_cons]
    refine .at_ascii hbyte (ascii_of_role fun hrole => ?_)
    simp [Scan.inWord, Scanner.role?, Scanner.bare, hr, hrole, Role.endsWord] at hends

/-- So does every element of a script. -/
theorem element_boundary
    (h : Reads (Utf8.encode text) recalls levels (.element .substitution before after) start [node]
      stop) : Boundary text stop := by
  generalize hnodes : [node] = nodes at h
  cases h with
  | lexeme h =>
    have hsize := h.bounds
    have shape : Lexeme.Shape .script _ _ _ := h.shape rfl
    have hend := shape.boundary_script (h.kind_mem rfl) (List.take_append_drop _ _).symm
    rwa [List.length_take_of_le hsize.2] at hend
  | refer hg => exact hg.elim
  | command _ _ h | reserved _ h | subject h | esac _ h | pattern _ h => exact h.word_boundary

end Reads

theorem Awaited.boundary {recalls : Prop} (h : Awaited (Utf8.encode text) recalls pos) :
    Boundary text pos := by
  obtain ⟨_, _, _, _, reads⟩ := h
  exact reads.element_boundary

/-- The word that is found in the place of `in` is told as it is. -/
theorem got_of_tokenize {e : LexError} {got : String} (h : tokenize (Utf8.encode text) = .error e)
    (hc : e.cause = .expectedIn got) :
    Boundary text e.pos ∧ got ≠ "" ∧
      Utf8.encode got.toList = ((Utf8.encode text).drop e.pos).takeWhile isPlain := by
  have hstart := (awaited_of_tokenize h hc).boundary
  obtain ⟨stop, shows⟩ := shows_of_tokenize h
  rw [hc] at shows
  obtain ⟨word, hword, hne, _, rfl, _⟩ := shows
  have hdrop : (Utf8.encode text).drop e.pos =
      word ++ ((Utf8.encode text).drop e.pos).dropWhile isPlain := by
    rw [hword, List.takeWhile_append_dropWhile]
  have hstop : Boundary text (e.pos + word.length) := by
    refine boundary_of_next hdrop hne fun b hb => ascii_of_role fun hr => ?_
    have hplain := List.head?_dropWhile_not isPlain ((Utf8.encode text).drop e.pos)
    rw [hb] at hplain
    simp [isPlain, hr] at hplain
  obtain ⟨part, _, hpart⟩ := hstart.extract hstop
  rw [List.extract_eq_take_drop, Nat.add_sub_cancel_left, hdrop, List.take_left] at hpart
  rw [← hword, hpart, Utf8.lossy_encode, String.toList_ofList]
  refine ⟨hstart, ?_, rfl⟩
  intro hempty
  obtain rfl : part = [] := by simpa using congrArg String.toList hempty
  exact hne hpart

end ShellLex
