import ShellLex.Proofs.Completeness.Runs
import ShellLex.Proofs.Locality
/-!
Scans that read nothing twice. If no `$((` is read again as a command substitution, none is recalled
from the table either: all that the table holds is of places that the scan has passed. So the nodes
keep to the levels, and what was kept for them is of no use to what follows.
-/
namespace ShellLex

/-- The table holds nothing for the bytes that follow. -/
def Scanner.Ahead (s : Scanner) : Prop := ∀ pos outcome, s.held? pos = some outcome → pos < s.pos

theorem Scanner.Ahead.of_outcomes {s t : Scanner} (h : s.Ahead) (ho : t.outcomes = s.outcomes)
    (hp : s.pos ≤ t.pos) : t.Ahead := by
  intro pos outcome he
  rw [held?_congr ho] at he
  exact Nat.lt_of_lt_of_le (h pos outcome he) hp

def Node.Straight (source : List UInt8) : Node → Prop
  | .enclosed .substitution opening _ _ => ¬ ascii "$((" <+: source.drop opening.pos
  | _ => True

structure Scanner.Straight (levels : Nat) (s : Scanner) (nodes : List Node) (t : Scanner) :
    Prop where
  ahead : t.Ahead
  kept : s.outcomes.isSome → t.outcomes.isSome
  nesting : Node.nestingAll nodes ≤ levels
  forward : s.pos + (Node.textAll nodes).length ≤ t.pos

namespace Scanner

variable {levels : Nat} {s t u : Scanner} {nodes nodes' : List Node}

theorem Straight.refl (h : s.Ahead) : s.Straight levels [] s :=
  ⟨h, id, Nat.zero_le _, Nat.le_refl _⟩

theorem Straight.append (h : s.Straight levels nodes t) (k : t.Straight levels nodes' u) :
    s.Straight levels (nodes ++ nodes') u := by
  refine ⟨k.ahead, fun hs => k.kept (h.kept hs), ?_, ?_⟩
  · rw [Node.nestingAll_append]
    exact Nat.max_le.mpr ⟨h.nesting, k.nesting⟩
  · have := h.forward
    have := k.forward
    rw [Node.textAll_append, List.length_append]
    omega

theorem Straight.enter (h : s.Ahead) (state : State) : s.Straight levels [] (s.enter state) := by
  refine ⟨h.of_outcomes ?_ ?_, ?_, Nat.zero_le _, ?_⟩ <;> simp [Node.textAll]

theorem Straight.take (h : s.Ahead) (kind : Kind) (size : Nat) :
    s.Straight levels [.leaf ⟨kind, s.rest.take size, s.pos⟩] (s.skip size) := by
  refine ⟨h.of_outcomes rfl (Nat.le_add_right _ _), id, Nat.zero_le _, ?_⟩
  simp [Node.textAll, Node.text, skip]

theorem Straight.ofWord (h : s.Straight levels nodes t) :
    s.Straight levels [.word nodes] t := by
  refine ⟨h.ahead, h.kept, ?_, ?_⟩
  · rw [Node.nestingAll_singleton]
    exact h.nesting
  · rw [Node.textAll, Node.textAll, List.append_nil]
    exact h.forward

theorem Straight.enclosed (d : Delimiter)
    (h : (s.skip d.opening.length).Straight levels nodes t) :
    s.Straight (levels + 1) [d.enclosing s nodes t] (t.skip d.closing.length) := by
  have hforward := h.forward
  refine ⟨h.ahead.of_outcomes rfl (Nat.le_add_right _ _), h.kept, ?_, ?_⟩
  · rw [Node.nestingAll_singleton]
    exact Nat.succ_le_succ h.nesting
  · simp only [Delimiter.enclosing, Node.textAll, Node.text, skip, List.length_append,
      List.length_nil] at hforward ⊢
    omega

/-- The node that is recorded takes a byte, so its own entry is behind as well. -/
theorem Straight.record {node : Node} {outcome : Outcome} (h : s.Straight levels [node] t)
    (hn : node.text ≠ []) : s.Straight levels [node] (t.record s.pos outcome) := by
  have hforward := h.forward
  rw [Node.textAll, Node.textAll, List.append_nil] at hforward
  have hsize := List.length_pos_iff.mpr hn
  refine ⟨?_, fun hs => ?_, h.nesting, h.forward⟩
  · intro pos found he
    by_cases hpos : pos = s.pos
    · change pos < t.pos
      omega
    · rw [held?_record_of_ne hpos] at he
      exact h.ahead pos found he
  · rw [Scanner.record, Option.isSome_map]
    exact h.kept hs

end Scanner

def Passage.straight (source : List UInt8) : Passage where
  Passes levels s nodes t := s.In source → t.In source ∧
    (s.Ahead → Node.AllIn (Node.Straight source) nodes → s.Straight levels nodes t)
  Fails _ _ := True
  Denied _ _ _ := True
  nil hs := ⟨hs, fun ha _ => .refl ha⟩
  append h k hs := by
    obtain ⟨ht, hst⟩ := h hs
    obtain ⟨hu, htu⟩ := k ht
    refine ⟨hu, fun ha hn => ?_⟩
    obtain ⟨hn, hn'⟩ := Node.allIn_append.mp hn
    have first := hst ha hn
    exact first.append (htu first.ahead hn')
  enter state hs := ⟨hs.enter state, fun ha _ => .enter ha state⟩
  attempted hs := ⟨⟨hs.rest, hs.within⟩, fun ha _ => ⟨ha, id, Nat.zero_le _, Nat.le_refl _⟩⟩
  take kind size hs := ⟨hs.skip size, fun ha _ => .take ha kind size⟩
  rekind _ h hs := by
    obtain ⟨ht, hst⟩ := h hs
    refine ⟨ht, fun ha _ => ?_⟩
    have straight := hst ha ⟨trivial, trivial⟩
    exact ⟨straight.ahead, straight.kept, Nat.zero_le _, straight.forward⟩
  ofWord h hs := by
    obtain ⟨ht, hst⟩ := h hs
    exact ⟨ht, fun ha hn => (hst ha hn.1.2).ofWord⟩
  enclosed d _ _ h _ hs := by
    obtain ⟨ht, hst⟩ := h (hs.skip _)
    refine ⟨ht.skip _, fun ha hn => ?_⟩
    exact .enclosed d (hst (ha.of_outcomes rfl (Nat.le_add_right _ _)) hn.1.2)
  retried := by
    intro levels s e t nodes u hp _ _ h _ hs
    have hback : (s.again e t).In source := ⟨hs.rest, hs.within⟩
    obtain ⟨hu, _⟩ := h (hback.skip 2)
    refine ⟨hu.skip 1, fun _ hn => ?_⟩
    rw [hs.rest] at hp
    exact absurd hp hn.1.1
  retry_fails _ _ := trivial
  recalled ho _ hs := ⟨hs.skip _, fun ha _ => absurd (ha _ _ ho) (Nat.lt_irrefl _)⟩
  recalled_fails _ := trivial
  kept := by
    intro levels s node t ho hn h hs
    obtain ⟨ht, hst⟩ := h hs
    exact ⟨⟨ht.rest, ht.within⟩, fun ha hall => (hst ha hall).record hn⟩
  kept_fails _ _ := trivial
  fail := trivial
  left _ _ := trivial
  fails _ _ := trivial

theorem Passage.straight_denies (source : List UInt8) (levels : Nat) :
    (Passage.straight source).Denies (Scan.deeper levels) :=
  fun _ _ _ _ _ => trivial

variable {source : List UInt8} {nodes : List Node}

/-- Where the text of a command substitution is not that of a `$((`, it was not read from one. -/
theorem Reads.straight {recalls : Prop} {levels pos stop : Nat} {goal : Goal}
    (h : Reads source recalls levels goal pos nodes stop)
    (hd : Node.AllIn (¬ Node.Retried ·) nodes) : Node.AllIn (Node.Straight source) nodes := by
  induction h with
  | lexeme | reserved | esac => exact ⟨trivial, trivial⟩
  | refer _ _ ih | quotes _ ih | group _ ih | substitution _ _ ih | expand _ ih
  | arithmetic _ ih | retry _ _ ih | recalled _ _ ih | word _ _ _ ih => exact ih hd
  | @construct _ d _ _ _ _ _ ho hb h he hc ih =>
    refine ⟨⟨?_, ih hd.1.2⟩, trivial⟩
    cases d with
    | commandSubstitution => exact fun hp => hd.1.1 (Reads.retried hp (.construct ho hb h he hc)).1
    | doubleQuote | arithmetic | arithmeticGroup => trivial
  | emptyBody | emptyScript | noParts => trivial
  | bodySnoc _ _ _ ih ihn | scriptSnoc _ _ ih ihn | partsSnoc _ _ ih ihn =>
    rw [Node.allIn_append] at hd ⊢
    exact ⟨ih hd.1, ihn hd.2⟩
  | command _ _ _ ih | subject _ ih | pattern _ _ ih => exact ⟨⟨trivial, ih hd.1.2⟩, trivial⟩

/-- A script with no retry among its events holds no node that was read twice, and its nodes are
derived at the limit with nothing recalled. -/
theorem tokenize_straight (h : tokenize source = .ok nodes)
    (hr : ∀ pos e, Event.retry pos e ∉ events source) :
    Node.AllIn (¬ Node.Retried ·) nodes ∧
    ∃ after, Reads source False nestingLimit (.script .normal after) 0 nodes source.length := by
  have plain : Node.AllIn (¬ Node.Retried ·) nodes := by
    refine (events_retry h).imp fun node hn hretried => ?_
    obtain ⟨e, he⟩ := hn hretried
    exact hr _ e he
  refine ⟨plain, ?_⟩
  obtain ⟨after, hreads⟩ := tokenize_reads h
  obtain ⟨s, hrun⟩ := script_of_tokenize h
  have run := Passage.script_along (Passage.straight_denies source) (.start source)
  have hahead : (Scanner.start source).Ahead := nofun
  have straight := (run.of_ok hrun ⟨rfl, Nat.zero_le _⟩).2 hahead (hreads.straight plain)
  exact ⟨after, hreads.relevel straight.nesting⟩

end ShellLex
