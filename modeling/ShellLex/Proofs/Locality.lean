import Mathlib.Data.List.Find
import ShellLex.Proofs.Depth
import ShellLex.Proofs.Pairing.Routines
/-!
Derivations look no further than one byte past what they read. Where two sources hold the same bytes
for a stretch, what is derived inside of it from one is derived from the other.
-/
namespace ShellLex

section Stretch

variable {u v : List UInt8}

theorem prefix_append_congr {word : List UInt8} (h : word.length ≤ u.length) (v' : List UInt8) :
    word <+: u ++ v ↔ word <+: u ++ v' := by
  have inside (tail : List UInt8) : word <+: u ++ tail ↔ word <+: u :=
    ⟨fun hp => List.prefix_of_prefix_length_le hp (List.prefix_append u tail) h,
      fun hp => hp.trans (List.prefix_append u tail)⟩
  rw [inside, inside]

theorem take_append_congr {size : Nat} (h : size ≤ u.length) (v' : List UInt8) :
    (u ++ v).take size = (u ++ v').take size := by
  rw [List.take_append_of_le_length h, List.take_append_of_le_length h]

theorem takeWhile_append_congr {accept : UInt8 → Bool}
    (h : ((u ++ v).takeWhile accept).length < u.length) (v' : List UInt8) :
    (u ++ v).takeWhile accept = (u ++ v').takeWhile accept := by
  rw [List.takeWhile_append] at h ⊢
  rw [List.takeWhile_append]
  split
  · rename_i hall
    rw [if_pos hall, List.length_append] at h
    omega
  · rfl

end Stretch

namespace Lexeme

variable {table : List (List UInt8)} {u v word : List UInt8} {b : UInt8}

/-- The longer of two words with one beginning comes first, and the beginnings of a word are words
of the table themselves. -/
structure Graded (table : List (List UInt8)) : Prop where
  longest : table.Pairwise fun word longer => ¬ word <+: longer
  beginnings : ∀ word ∈ table, ∀ size < word.length, 0 < size → word.take size ∈ table

theorem graded_operators : Graded operators := ⟨by decide, by decide⟩

theorem graded_arithmeticOperators : Graded arithmeticOperators := ⟨by decide, by decide⟩

theorem first?_longest {bytes other : List UInt8} (ht : Graded table)
    (h : first? table bytes = some word) (hm : other ∈ table) (hp : other <+: bytes) :
    other.length ≤ word.length := by
  obtain ⟨hw, before, after, rfl, hn⟩ := List.find?_eq_some_iff_append.mp h
  have hw : word <+: bytes := by simpa using hw
  rcases List.mem_append.mp hm with hm | hm
  · have hno := hn other hm
    rw [List.isPrefixOf_iff_prefix.mpr hp] at hno
    nomatch hno
  rcases List.mem_cons.mp hm with rfl | hm
  · exact Nat.le_refl _
  · have hsorted := (List.pairwise_append.mp ht.longest).2.1
    have hno : ¬ word <+: other := (List.pairwise_cons.mp hsorted).1 other hm
    rcases List.prefix_or_prefix_of_prefix hp hw with h | h
    · exact h.length_le
    · exact absurd h hno

/-- What a table finds depends on a stretch alone if no word of it goes on past the stretch. -/
theorem first?_congr {v' : List UInt8}
    (h : ∀ word ∈ table, u.length < word.length → ¬ word <+: u ++ v ∧ ¬ word <+: u ++ v') :
    first? table (u ++ v) = first? table (u ++ v') := by
  unfold first?
  apply List.find?_congr
  intro word hm
  rw [Bool.eq_iff_iff, List.isPrefixOf_iff_prefix, List.isPrefixOf_iff_prefix]
  rcases Nat.lt_or_ge u.length word.length with hl | hl
  · obtain ⟨hv, hv'⟩ := h word hm hl
    exact iff_of_false hv hv'
  · exact prefix_append_congr hl v'

/-- A word that ends inside a stretch is found in whatever follows the stretch. -/
theorem first?_append (ht : Graded table) (hu : u ≠ [])
    (h : ∀ word, first? table (u ++ v) = some word → word.length < u.length) (v' : List UInt8) :
    first? table (u ++ v) = first? table (u ++ v') := by
  -- the stretch itself would be a word, and a longer one than the one found
  have stretch : u ∉ table := by
    intro hm
    have hp : u <+: u ++ v := List.prefix_append u v
    cases hf : first? table (u ++ v) with
    | none =>
      have hn := List.find?_eq_none.mp hf u hm
      simp at hn
    | some word =>
      have hle := first?_longest ht hf hm hp
      have := h word hf
      omega
  have short (tail word : List UInt8) (hm : word ∈ table) (hl : u.length < word.length) :
      ¬ word <+: u ++ tail := by
    intro hp
    have hpre : u <+: word :=
      List.prefix_of_prefix_length_le (List.prefix_append u tail) hp (Nat.le_of_lt hl)
    rw [List.prefix_iff_eq_take.mp hpre] at stretch
    exact stretch (ht.beginnings word hm _ hl (List.length_pos_iff.mpr hu))
  exact first?_congr fun word hm hl => ⟨short v word hm hl, short v' word hm hl⟩

theorem operator_append (h : operator (b :: (u ++ v)) < (b :: u).length) (v' : List UInt8) :
    operator (b :: (u ++ v)) = operator (b :: (u ++ v')) := by
  have hf : first? operators (b :: u ++ v) = first? operators (b :: u ++ v') := by
    refine first?_append graded_operators (List.cons_ne_nil _ _) ?_ v'
    intro word hw
    rw [List.cons_append] at hw
    simpa [operator, hw] using h
  rw [List.cons_append, List.cons_append] at hf
  rw [operator, hf, operator]

theorem arithmeticOperator?_append
    (h : ∀ size, arithmeticOperator? (b :: (u ++ v)) = some size → size < (b :: u).length)
    (v' : List UInt8) :
    arithmeticOperator? (b :: (u ++ v)) = arithmeticOperator? (b :: (u ++ v')) := by
  have hf : first? arithmeticOperators (b :: u ++ v) =
      first? arithmeticOperators (b :: u ++ v') := by
    refine first?_append graded_arithmeticOperators (List.cons_ne_nil _ _) ?_ v'
    intro word hw
    rw [List.cons_append] at hw
    exact h _ (by rw [arithmeticOperator?, hw, Option.map_some])
  rw [List.cons_append, List.cons_append] at hf
  rw [arithmeticOperator?, hf, arithmeticOperator?]

theorem escape_append (h : escape (b :: (u ++ v)) < (b :: u).length) (v' : List UInt8) :
    escape (b :: (u ++ v)) = escape (b :: (u ++ v')) := by
  simp only [escape, List.length_cons, List.length_append] at h ⊢
  omega

theorem number_cons {c : UInt8} {bytes : List UInt8} :
    number (b :: c :: bytes) =
      if b = 0x30 ∧ (c = 0x78 ∨ c = 0x58) then 2 + (bytes.takeWhile isHexDigit).length
      else ((b :: c :: bytes).takeWhile isDigit).length := by
  by_cases hb : b = 0x30
  · subst hb
    simp [number]
  · simp [number, hb]

theorem number_append (hb : isDigit b) (h : number (b :: (u ++ v)) < (b :: u).length)
    (v' : List UInt8) : number (b :: (u ++ v)) = number (b :: (u ++ v')) := by
  cases u with
  | nil =>
    have : 0 < number (b :: ([] ++ v)) := (number_bounds hb).1
    simp only [List.length_singleton] at h
    omega
  | cons c u =>
    simp only [List.cons_append, number_cons] at h ⊢
    split
    · rename_i hc
      rw [if_pos hc] at h
      simp only [List.length_cons] at h
      have hl : ((u ++ v).takeWhile isHexDigit).length < u.length := by omega
      rw [takeWhile_append_congr hl v']
    · rename_i hc
      rw [if_neg hc] at h
      exact congrArg List.length (takeWhile_append_congr (u := b :: c :: u) h v')

theorem reference_append (h : reference (b :: (u ++ v)) < (b :: u).length) (v' : List UInt8) :
    reference (b :: (u ++ v)) = reference (b :: (u ++ v')) := by
  cases u with
  | nil =>
    have : 0 < reference (b :: ([] ++ v)) := reference_bounds.1
    simp only [List.length_singleton] at h
    omega
  | cons c u =>
    simp only [reference, List.cons_append] at h ⊢
    split
    · rename_i hc
      rw [if_pos hc] at h
      simp only [List.length_cons] at h
      have hl : ((u ++ v).takeWhile isLetter).length < u.length := by omega
      rw [takeWhile_append_congr hl v']
    · rfl

end Lexeme

/-- A leaf that ends inside a stretch is one whatever follows the stretch. -/
theorem Lexes.append {goal : Goal} {u v : List UInt8} {kind : Kind} {size : Nat}
    (h : Lexes goal (u ++ v) kind size) (hlt : size < u.length) (v' : List UInt8) :
    Lexes goal (u ++ v') kind size := by
  have hpos := h.bounds.1
  obtain ⟨b, u, rfl⟩ : ∃ b rest, u = b :: rest :=
    List.exists_cons_of_length_pos (Nat.lt_of_le_of_lt (Nat.zero_le _) hlt)
  have run {accept : UInt8 → Bool}
      (hl : ((b :: (u ++ v)).takeWhile accept).length < (b :: u).length) :
      (b :: (u ++ v)).takeWhile accept = (b :: (u ++ v')).takeWhile accept :=
    takeWhile_append_congr (u := b :: u) hl v'
  rw [List.cons_append] at h ⊢
  cases h with
  | blanks hf hb =>
    rw [run hlt]
    exact .blanks hf hb
  | comment hb =>
    rw [run hlt]
    exact .comment hb
  | newline hb => exact .newline hb
  | separator hs hb =>
    have htake := take_append_congr (v := v) (Nat.le_of_lt hlt) v'
    rw [List.cons_append, List.cons_append] at htake
    rw [htake, Lexeme.operator_append hlt v']
    exact .separator hs hb
  | redirection hs hb =>
    rw [Lexeme.operator_append hlt v']
    exact .redirection hs hb
  | caseIn hb hw =>
    rw [run hlt] at hw ⊢
    exact .caseIn hb hw
  | openPattern hb => exact .openPattern hb
  | closePattern hb => exact .closePattern hb
  | escape hg hb =>
    rw [Lexeme.escape_append hlt v']
    exact .escape hg hb
  | quoted hb =>
    rw [run hlt]
    exact .quoted hb
  | arithmeticNewline hb => exact .arithmeticNewline hb
  | number hb =>
    rw [Lexeme.number_append hb hlt v']
    exact .number hb
  | name hb =>
    rw [run hlt]
    exact .name hb
  | arithmeticOperator hb ho =>
    rw [Lexeme.arithmeticOperator?_append (by simpa [ho] using hlt) v'] at ho
    exact .arithmeticOperator hb ho
  | unknown hb hd hn ho =>
    rw [Lexeme.arithmeticOperator?_append (by simp [ho]) v'] at ho
    exact .unknown hb hd hn ho
  | mark hb => exact .mark hb
  | plain hb =>
    rw [run hlt]
    exact .plain hb
  | dollar hb hp hu =>
    have two (word : List UInt8) (hw : word.length = 2) :
        word <+: b :: (u ++ v) ↔ word <+: b :: (u ++ v') :=
      prefix_append_congr (u := b :: u) (by omega) v'
    rw [two _ (by decide)] at hp hu
    rw [Lexeme.reference_append hlt v']
    exact .dollar hb hp hu

/-- From `lo` to `hi`, the second source holds at `f pos` what the first holds at `pos`. -/
structure Overlap (source source' : List UInt8) (lo hi : Nat) (f : Nat → Nat) : Prop where
  add : ∀ {pos}, lo ≤ pos → ∀ size, f (pos + size) = f pos + size
  common : ∀ {pos}, lo ≤ pos → pos ≤ hi → ∃ u v v', u.length = hi - pos ∧
    source.drop pos = u ++ v ∧ source'.drop (f pos) = u ++ v'

namespace Overlap

variable {source source' : List UInt8} {lo hi pos : Nat} {f : Nat → Nat}

theorem prefix_iff (h : Overlap source source' lo hi f) (hlo : lo ≤ pos) {word : List UInt8}
    (hw : pos + word.length ≤ hi) : word <+: source.drop pos ↔ word <+: source'.drop (f pos) := by
  obtain ⟨u, v, v', hl, hu, hu'⟩ := h.common hlo (by omega)
  rw [hu, hu']
  exact prefix_append_congr (by omega) v'

theorem take_eq (h : Overlap source source' lo hi f) (hlo : lo ≤ pos) {size : Nat}
    (hs : pos + size ≤ hi) : (source.drop pos).take size = (source'.drop (f pos)).take size := by
  obtain ⟨u, v, v', hl, hu, hu'⟩ := h.common hlo (by omega)
  rw [hu, hu']
  exact take_append_congr (by omega) v'

theorem role?_eq (h : Overlap source source' lo hi f) (hlo : lo ≤ pos) (hhi : pos < hi)
    (state : State) :
    (Scanner.bare source pos state).role? = (Scanner.bare source' (f pos) state).role? := by
  obtain ⟨u, v, v', hl, hu, hu'⟩ := h.common hlo (Nat.le_of_lt hhi)
  obtain ⟨b, u, rfl⟩ := List.exists_cons_of_length_pos (l := u) (by omega)
  simp [Scanner.role?, Scanner.bare, hu, hu']

theorem goesOn_eq (h : Overlap source source' lo hi f) (hlo : lo ≤ pos) (hhi : pos < hi)
    (d : Delimiter) (state : State) :
    d.goesOn (.bare source pos state) = d.goesOn (.bare source' (f pos) state) := by
  rw [Delimiter.goesOn, h.role?_eq hlo hhi]
  rfl

theorem lexes (h : Overlap source source' lo hi f) (hlo : lo ≤ pos) {goal : Goal} {kind : Kind}
    {size : Nat} (hs : pos + size < hi) (hx : Lexes goal (source.drop pos) kind size) :
    Lexes goal (source'.drop (f pos)) kind size := by
  obtain ⟨u, v, v', hl, hu, hu'⟩ := h.common hlo (by omega)
  rw [hu] at hx
  rw [hu']
  exact hx.append (by omega) v'

end Overlap

/-- What is read so ends with a delimiter, unless it is a leaf. -/
def Goal.Shut : Goal → Prop
  | .part | .reference | .expansion | .construct _ => True
  | _ => False

def Goal.Inside (hi : Nat) (goal : Goal) (nodes : List Node) (stop : Nat) : Prop :=
  stop < hi ∨ stop = hi ∧ goal.Shut ∧ ∀ l, nodes ≠ [.leaf l]

namespace Goal.Inside

variable {hi stop : Nat} {goal goal' : Goal} {nodes : List Node}

theorem le (h : goal.Inside hi nodes stop) : stop ≤ hi := by
  rcases h with h | ⟨h, _⟩ <;> omega

theorem shut (h : goal.Inside hi nodes stop) (hg : goal'.Shut) : goal'.Inside hi nodes stop :=
  h.imp id fun h => ⟨h.1, hg, h.2.2⟩

theorem lt (h : goal.Inside hi nodes stop) (hg : ¬ goal.Shut) : stop < hi := by
  rcases h with h | ⟨_, h, _⟩
  · exact h
  · exact absurd h hg

end Goal.Inside

namespace Reads

variable {source source' : List UInt8} {recalls : Prop} {levels pos stop lo hi : Nat}
  {goal : Goal} {nodes : List Node} {f : Nat → Nat}

/-- What does not need its levels and recalls can be read without them. -/
theorem relevel {limit : Nat} (h : Reads source recalls levels goal pos nodes stop)
    (hn : Node.nestingAll nodes ≤ limit) : Reads source False limit goal pos nodes stop := by
  induction h generalizing limit with
  | lexeme h => exact .lexeme h
  | refer hg _ ih => exact .refer hg (ih hn)
  | quotes _ ih => exact .quotes (ih hn)
  | group _ ih => exact .group (ih hn)
  | substitution hp _ ih => exact .substitution hp (ih hn)
  | expand _ ih => exact .expand (ih hn)
  | arithmetic _ ih => exact .arithmetic (ih hn)
  | retry hp _ ih => exact .retry hp (ih hn)
  | recalled _ _ ih => exact ih hn
  | construct ho hb _ he hc ih =>
    rw [Node.nestingAll_singleton, Node.nesting] at hn
    cases limit with
    | zero => omega
    | succ below => exact .construct ho hb (ih (by omega)) he hc
  | emptyBody => exact .emptyBody
  | bodySnoc _ hm _ ih ihn =>
    rw [Node.nestingAll_append] at hn
    exact .bodySnoc (ih (by omega)) hm (ihn (by omega))
  | emptyScript => exact .emptyScript
  | scriptSnoc _ _ ih ihn =>
    rw [Node.nestingAll_append] at hn
    exact .scriptSnoc (ih (by omega)) (ihn (by omega))
  | noParts => exact .noParts
  | partsSnoc _ _ ih ihn =>
    rw [Node.nestingAll_append] at hn
    exact .partsSnoc (ih (by omega)) (ihn (by omega))
  | word _ hne hs ih => exact .word (ih hn) hne hs
  | command hs hr _ ih =>
    rw [Node.nestingAll_singleton, Node.nesting] at hn
    exact .command hs hr (ih hn)
  | reserved hr _ ih =>
    obtain ⟨l, kind, rfl, _, _, rfl⟩ := Scan.reserved?_eq_some hr
    exact .reserved hr (ih (by simp [Node.nesting]))
  | subject _ ih =>
    rw [Node.nestingAll_singleton, Node.nesting] at hn
    exact .subject (ih hn)
  | esac he _ ih =>
    obtain ⟨rfl, _⟩ := Node.onlyLeaf?_eq_some (Option.filter_eq_some_iff.mp he).1
    exact .esac he (ih (by simp [Node.nesting]))
  | pattern he _ ih =>
    rw [Node.nestingAll_singleton, Node.nesting] at hn
    exact .pattern he (ih hn)

/-- What is read inside of a stretch is read where another source holds that stretch. -/
theorem transfer (h : Reads source recalls levels goal pos nodes stop)
    (ho : Overlap source source' lo hi f) (hlo : lo ≤ pos) (hhi : goal.Inside hi nodes stop) :
    Reads source' recalls levels goal (f pos) (Node.moveAll f nodes) (f stop) := by
  induction h with
  | @lexeme levels goal pos kind size h =>
    rcases hhi with hhi | ⟨_, _, hne⟩
    · rw [ho.add hlo, Node.moveAll_cons, Node.move, Leaf.move, ho.take_eq hlo (Nat.le_of_lt hhi)]
      exact .lexeme (ho.lexes hlo hhi h)
    · exact absurd rfl (hne _)
  | refer hg _ ih => exact .refer hg (ih hlo (hhi.shut trivial))
  | quotes _ ih => exact .quotes (ih hlo (hhi.shut trivial))
  | group _ ih => exact .group (ih hlo (hhi.shut trivial))
  | substitution hp h ih =>
    have hb := h.construct_bounds
    have := hhi.le
    refine .substitution ?_ (ih hlo (hhi.shut trivial))
    rwa [← ho.prefix_iff hlo (Nat.le_trans hb this)]
  | expand _ ih => exact .expand (ih hlo (hhi.shut trivial))
  | arithmetic _ ih => exact .arithmetic (ih hlo (hhi.shut trivial))
  | retry hp h ih =>
    have hb := h.construct_bounds
    have := hhi.le
    refine .retry ?_ (ih hlo (hhi.shut trivial))
    rwa [← ho.prefix_iff hlo (Nat.le_trans hb this)]
  | recalled hr _ ih => exact .recalled hr (ih hlo (hhi.shut trivial))
  | @construct levels d before after pos nodes stop hopen hb h he hclose ih =>
    have hle := h.le
    have hend := hhi.le
    have hsize : 0 < d.closing.length := by cases d <;> decide
    have body := ih (by omega) (Or.inl (by omega))
    have hin := hopen.length_le
    rw [ho.add hlo] at body
    rw [Node.moveAll_cons, Node.move, Leaf.move, Leaf.move, ho.take_eq hlo (by omega),
      ho.take_eq (by omega) hend, ho.add (by omega)]
    refine .construct ?_ hb body ?_ ?_
    · rwa [← ho.prefix_iff hlo (by omega)]
    · rwa [← ho.goesOn_eq (by omega) (by omega)]
    · rwa [← ho.prefix_iff (by omega) hend]
  | emptyBody => exact .emptyBody
  | bodySnoc h hm hn ih ihn =>
    have hlt := hhi.lt id
    have := h.le
    have := hn.lt_of_singleton
    rw [Node.moveAll_append]
    refine .bodySnoc (ih hlo (Or.inl (by omega))) ?_ (ihn (by omega) (Or.inl hlt))
    rwa [← ho.goesOn_eq (by omega) (by omega)]
  | emptyScript => exact .emptyScript
  | scriptSnoc h hn ih ihn =>
    have hlt := hhi.lt id
    have := h.le
    have := hn.lt_of_singleton
    rw [Node.moveAll_append]
    exact .scriptSnoc (ih hlo (Or.inl (by omega))) (ihn (by omega) (Or.inl hlt))
  | noParts => exact .noParts
  | partsSnoc h hn ih ihn =>
    have hlt := hhi.lt id
    have := h.le
    have := hn.lt_of_singleton
    rw [Node.moveAll_append]
    exact .partsSnoc (ih hlo (Or.inl (by omega))) (ihn (by omega) (Or.inl hlt))
  | word h hne hs ih =>
    have hlt := hhi.lt id
    have := h.le
    refine .word (ih hlo (Or.inl hlt)) ?_ ?_
    · simpa [Node.moveAll_eq_map] using hne
    · rwa [Scan.inWord, ← ho.role?_eq (by omega) hlt]
  | command hs hr _ ih =>
    refine .command hs ?_ (ih hlo (Or.inl (hhi.lt id)))
    intro hn
    rw [Scan.reserved?_moveAll, hr hn, Option.map_none]
  | reserved hr _ ih =>
    refine .reserved ?_ (ih hlo (Or.inl (hhi.lt id)))
    rw [Scan.reserved?_moveAll, hr, Option.map_some]
  | subject _ ih => exact .subject (ih hlo (Or.inl (hhi.lt id)))
  | @esac levels pos nodes stop leaf he _ ih =>
    have he' : (Node.onlyLeaf? .term (Node.moveAll f nodes)).filter (·.data = ascii "esac") =
        some (leaf.move f) := by
      rw [Node.onlyLeaf?_filter_moveAll, he, Option.map_some]
    exact .esac he' (ih hlo (Or.inl (hhi.lt id)))
  | pattern he _ ih =>
    refine .pattern ?_ (ih hlo (Or.inl (hhi.lt id)))
    rw [Node.onlyLeaf?_filter_moveAll, he, Option.map_none]

end Reads

end ShellLex
