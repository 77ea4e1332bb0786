import ShellLex.Proofs.Calls
import ShellLex.Proofs.Passage
import ShellLex.Proofs.Tree
/-!
Which `$((` are no arithmetic. A ledger lists offsets as a scan goes on, from its events or apart
from them; if it lists every `$((` whose arithmetic fails, it lists every one that a node holds as
a command substitution.
-/
namespace ShellLex

/-- A list of the `$((` that were found to be no arithmetic. -/
structure Ledger (source : List UInt8) where
  /-- The `$((` at an offset is listed after these events. -/
  Denied : Nat → List Event → Prop
  /-- The scanners that the ledger is for. -/
  Here : Scanner → Prop
  grow : ∀ {pos journal} (event : Event), Denied pos journal → Denied pos (event :: journal)
  rest : ∀ {s}, Here s → s.rest = source.drop s.pos
  skip : ∀ {s} (size : Nat), Here s → Here (s.skip size)
  enter : ∀ {s} (state : State), Here s → Here (s.enter state)
  note : ∀ {s} (event : Event), Here s → Here (s.note event)
  rewind : ∀ {s t}, Here s → Here t → Here { t with rest := s.rest, pos := s.pos }
  record : ∀ {s} (pos : Nat) (outcome : Outcome), Here s → Here (s.record pos outcome)

namespace Ledger

open Scan

variable {source : List UInt8} {L : Ledger source} {s t u : Scanner}

/-- The ledger lists the `$((` that a command substitution was read from. -/
def Lists (L : Ledger source) (s : Scanner) : Node → Prop
  | .enclosed .substitution opening _ _ =>
    ascii "$((" <+: source.drop opening.pos → L.Denied opening.pos s.journal
  | _ => True

structure Inv (L : Ledger source) (s : Scanner) : Prop where
  here : L.Here s
  table : ∀ table, s.outcomes = some table → ∀ pos outcome, (pos, outcome) ∈ table →
    ∀ node, outcome.result = .ok node → node.All (L.Lists s)

structure Onward (L : Ledger source) (s t : Scanner) : Prop where
  inv : L.Inv t
  keeps : ∀ pos, L.Denied pos s.journal → L.Denied pos t.journal

theorem Onward.lists (h : L.Onward s t) (node : Node) (hl : L.Lists s node) : L.Lists t node := by
  cases node with
  | leaf | word => trivial
  | enclosed form =>
    cases form with
    | substitution => exact fun hp => h.keeps _ (hl hp)
    | quotes | arithmetic => trivial

theorem Onward.all {node : Node} (h : L.Onward s t) (ha : node.All (L.Lists s)) :
    node.All (L.Lists t) :=
  ha.imp h.lists

theorem Onward.allIn {nodes : List Node} (h : L.Onward s t) (ha : Node.AllIn (L.Lists s) nodes) :
    Node.AllIn (L.Lists t) nodes :=
  ha.imp h.lists

theorem Inv.onward (h : L.Inv s) : L.Onward s s := ⟨h, fun _ h => h⟩

theorem Onward.trans (h : L.Onward s t) (k : L.Onward t u) : L.Onward s u :=
  ⟨k.inv, fun pos hp => k.keeps pos (h.keeps pos hp)⟩

/-- A scanner with the same table goes on from one whose offsets it lists too. -/
theorem Inv.onward_of (h : L.Inv s) (ht : L.Here t) (ho : t.outcomes = s.outcomes)
    (hk : ∀ pos, L.Denied pos s.journal → L.Denied pos t.journal) : L.Onward s t := by
  have lists : ∀ node, L.Lists s node → L.Lists t node := by
    intro node hl
    cases node with
    | leaf | word => trivial
    | enclosed form =>
      cases form with
      | substitution => exact fun hp => hk _ (hl hp)
      | quotes | arithmetic => trivial
  refine ⟨⟨ht, ?_⟩, hk⟩
  intro table htable pos outcome hm node hn
  rw [ho] at htable
  exact (h.table table htable pos outcome hm node hn).imp lists

theorem Inv.skip (h : L.Inv s) (size : Nat) : L.Onward s (s.skip size) :=
  h.onward_of (L.skip size h.here) rfl fun _ hp => hp

theorem Inv.note (h : L.Inv s) (event : Event) : L.Onward s (s.note event) :=
  h.onward_of (L.note event h.here) rfl fun _ hp => L.grow event hp

theorem Inv.enter (h : L.Inv s) (state : State) : L.Onward s (s.enter state) := by
  refine h.onward_of (L.enter state h.here) (by simp) ?_
  intro pos hp
  unfold Scanner.enter
  split
  · exact hp
  · exact L.grow _ hp

theorem Inv.rewind (h : L.Inv s) (k : L.Inv t) :
    L.Onward t { t with rest := s.rest, pos := s.pos } :=
  k.onward_of (L.rewind h.here k.here) rfl fun _ hp => hp

theorem Inv.record {pos : Nat} {outcome : Outcome} (h : L.Inv s)
    (k : ∀ node, outcome.result = .ok node → node.All (L.Lists s)) :
    L.Onward s (s.record pos outcome) := by
  refine ⟨⟨L.record pos outcome h.here, ?_⟩, fun _ hp => hp⟩
  intro table ht p o hm node hn
  obtain ⟨old, ho, rfl⟩ := Option.map_eq_some_iff.mp ht
  rcases List.mem_cons.mp hm with heq | hm
  · obtain ⟨rfl, rfl⟩ := Prod.mk.inj heq
    exact k node hn
  · exact h.table old ho p o hm node hn

theorem Inv.again (e : LexError) (h : L.Inv s) (k : L.Inv t) : L.Onward t (s.again e t) :=
  (k.note (.retry s.pos e)).trans (h.rewind (k.note (.retry s.pos e)).inv)

def passage (L : Ledger source) : Passage where
  Passes _ s nodes t := L.Inv s → L.Onward s t ∧ Node.AllIn (L.Lists t) nodes
  Fails s t := L.Inv s → L.Onward s t
  Denied s e t := L.Here s → L.Denied s.pos (.retry s.pos e :: t.journal)
  nil hs := ⟨hs.onward, trivial⟩
  append h k hs := by
    obtain ⟨ht, hn⟩ := h hs
    obtain ⟨hu, hn'⟩ := k ht.inv
    exact ⟨ht.trans hu, Node.allIn_append.mpr ⟨hu.allIn hn, hn'⟩⟩
  enter state hs := ⟨hs.enter state, trivial⟩
  attempted hs := ⟨hs.note _, trivial⟩
  take _ size hs := ⟨hs.skip size, trivial, trivial⟩
  rekind _ h hs := ⟨(h hs).1, trivial, trivial⟩
  ofWord h hs := ⟨(h hs).1, ⟨trivial, (h hs).2⟩, trivial⟩
  enclosed d _ hd h _ hs := by
    have hopen := hs.skip d.opening.length
    obtain ⟨ht, hn⟩ := h hopen.inv
    have hclose := ht.inv.skip d.closing.length
    refine ⟨hopen.trans (ht.trans hclose), ⟨?_, hclose.allIn hn⟩, trivial⟩
    cases d with
    | commandSubstitution =>
      intro hp
      rw [← L.rest hs.here] at hp
      exact absurd hp (hd rfl)
    | doubleQuote | arithmetic | arithmeticGroup => trivial
  retried := by
    intro _ s e t nodes u _ hf hd h _ hs
    have hback := hs.again e (hf hs).inv
    have hopen := hback.inv.skip 2
    obtain ⟨hu, hn⟩ := h hopen.inv
    have hclose := hu.inv.skip 1
    have hall := hopen.trans (hu.trans hclose)
    exact ⟨(hf hs).trans (hback.trans hall), ⟨fun _ => hall.keeps _ (hd hs.here), hclose.allIn hn⟩,
      trivial⟩
  retry_fails := by
    intro s e t u hf h hs
    have hback := hs.again e (hf hs).inv
    exact (hf hs).trans (hback.trans (h hback.inv))
  recalled := by
    intro _ s outcome node ho hn hs
    obtain ⟨table, ht, hm⟩ := outcome?_mem ho
    have hskip := hs.skip (outcome.stop - s.pos)
    exact ⟨hskip, hskip.all (hs.table table ht _ _ hm _ hn), trivial⟩
  recalled_fails _ hs := hs.skip _
  kept := by
    intro _ s node t _ _ h hs
    obtain ⟨ht, hn⟩ := h hs
    have hrecord : L.Onward t (t.record s.pos ⟨.ok node, t.pos⟩) := by
      refine ht.inv.record ?_
      rintro _ ⟨⟩
      exact hn.1
    exact ⟨ht.trans hrecord, hrecord.allIn hn⟩
  kept_fails _ h hs := (h hs).trans ((h hs).inv.record nofun)
  fail hs := hs.onward
  left state h hs := (h hs).trans ((h hs).inv.enter state)
  fails h k hs := (h hs).1.trans (k (h hs).1.inv)

end Ledger

structure Scanner.In (source : List UInt8) (s : Scanner) : Prop where
  rest : s.rest = source.drop s.pos
  within : s.pos ≤ source.length

theorem Scanner.In.fits {source : List UInt8} {s : Scanner} (h : s.In source) :
    Fits source False { s with outcomes := none } :=
  ⟨h.rest, h.within, by simp⟩

theorem Scanner.In.skip {source : List UInt8} {s : Scanner} (h : s.In source) (size : Nat) :
    (s.skip size).In source :=
  ⟨(h.fits.skip size).rest, (h.fits.skip size).within⟩

theorem Scanner.In.enter {source : List UInt8} {s : Scanner} (h : s.In source) (state : State) :
    (s.enter state).In source :=
  ⟨by simpa using h.rest, by simpa using h.within⟩

def Ledger.ofEvents (source : List UInt8) : Ledger source where
  Denied pos journal := ∃ e, Event.retry pos e ∈ journal
  Here s := s.In source
  grow event h := h.imp fun _ he => List.mem_cons_of_mem event he
  rest h := h.rest
  skip size h := h.skip size
  enter state h := h.enter state
  note _ h := ⟨h.rest, h.within⟩
  rewind h _ := ⟨h.rest, h.within⟩
  record _ _ h := ⟨h.rest, h.within⟩

namespace Node

/-- A command substitution that was read from `$((`, which was no arithmetic there. -/
def Retried : Node → Prop
  | .enclosed .substitution opening nodes closing =>
    ascii "$((" <+: opening.data ++ textAll nodes ++ closing.data
  | _ => False

variable {source : List UInt8}

theorem Retried.starts {node : Node} (h : node.Retried) : ascii "$((" <+: node.text := by
  cases node with
  | leaf | word => exact h.elim
  | enclosed form =>
    cases form with
    | substitution => exact h
    | quotes | arithmetic => exact h.elim

@[simp] theorem retried_move (f : Nat → Nat) (node : Node) :
    (node.move f).Retried ↔ node.Retried := by
  cases node with
  | leaf | word => rfl
  | enclosed form opening nodes closing => cases form <;> simp [Retried, move]

theorem Retried.pos_move {f : Nat → Nat} {node : Node} (h : node.Retried) :
    (node.move f).pos = f node.pos := by
  cases node with
  | leaf | word => exact h.elim
  | enclosed => rfl

theorem all_retried_move (f : Nat → Nat) (p : Nat → Prop) (node : Node) :
    (node.move f).All (fun m => m.Retried → p m.pos) ↔
      node.All fun m => m.Retried → p (f m.pos) := by
  have same (m : Node) :
      ((m.move f).Retried → p (m.move f).pos) ↔ (m.Retried → p (f m.pos)) := by
    rw [retried_move]
    exact imp_congr_right fun hr => by rw [hr.pos_move]
  rw [all_move]
  exact ⟨fun h => h.imp fun m => (same m).mp, fun h => h.imp fun m => (same m).mpr⟩

theorem Spans.retried {node : Node} {start stop : Nat} (h : node.Spans source start stop)
    (hr : node.Retried) : ascii "$((" <+: source.drop node.pos := by
  have htext := hr.starts
  rw [h.text_eq, List.extract_eq_take_drop] at htext
  rw [h.pos_eq]
  exact htext.trans (List.take_prefix _ _)

mutual

/-- What is shown of the nodes that span a stretch holds of all that lie in one. -/
theorem Spans.all_imp {p q : Node → Prop} {node : Node} {start stop : Nat}
    (h : node.Spans source start stop)
    (hpq : ∀ node start stop, Spans source node start stop → p node → q node)
    (ha : node.All p) : node.All q := by
  match node, h, ha with
  | .leaf l, h, ha => exact hpq _ _ _ h ha
  | .word nodes, h, ha => exact ⟨hpq _ _ _ h ha.1, SpansAll.allIn_imp h.2 hpq ha.2⟩
  | .enclosed form opening nodes closing, h, ha =>
    obtain ⟨_, _, hn, _, _⟩ := id h
    exact ⟨hpq _ _ _ h ha.1, SpansAll.allIn_imp hn hpq ha.2⟩

theorem SpansAll.allIn_imp {p q : Node → Prop} {nodes : List Node} {start stop : Nat}
    (h : SpansAll source nodes start stop)
    (hpq : ∀ node start stop, Spans source node start stop → p node → q node)
    (ha : AllIn p nodes) : AllIn q nodes := by
  match nodes, h, ha with
  | [], _, _ => trivial
  | node :: nodes, ⟨_, hf, hn⟩, ha =>
    exact ⟨hf.all_imp hpq ha.1, SpansAll.allIn_imp hn hpq ha.2⟩

end

end Node

/-- A list of the nodes that a ledger lists is one of those that were retried. -/
theorem Ledger.allIn_retried {source : List UInt8} {L : Ledger source} {s : Scanner}
    {nodes : List Node} {start stop : Nat} (hs : Node.SpansAll source nodes start stop)
    (h : Node.AllIn (L.Lists s) nodes) :
    Node.AllIn (fun node => node.Retried → L.Denied node.pos s.journal) nodes := by
  refine hs.allIn_imp ?_ h
  intro node start stop hspans hl hr
  have hp := hspans.retried hr
  cases node with
  | leaf | word => exact hr.elim
  | enclosed form =>
    cases form with
    | substitution => exact hl hp
    | quotes | arithmetic => exact hr.elim

/-- The events of a source list every `$((` that a command substitution was read from. -/
theorem events_lists {source : List UInt8} {nodes : List Node} (h : tokenize source = .ok nodes) :
    ∃ s, s.journal.reverse = events source ∧
      Node.AllIn ((Ledger.ofEvents source).Lists s) nodes := by
  have hdenies : ∀ levels, (Ledger.ofEvents source).passage.Denies (Scan.deeper levels) :=
    fun _ _ e _ _ _ _ => ⟨e, List.mem_cons_self⟩
  have hinv : (Ledger.ofEvents source).Inv (.start source) := by
    refine ⟨⟨rfl, Nat.zero_le _⟩, ?_⟩
    rintro _ ⟨⟩
    simp
  have run := Passage.script_along hdenies (.start source)
  obtain ⟨s, hrun⟩ := script_of_tokenize h
  exact ⟨s, by rw [events, hrun], (run.of_ok hrun hinv).2⟩

/-- Each command substitution that was read from `$((` has a retry among the events. -/
theorem events_retry {source : List UInt8} {nodes : List Node} (h : tokenize source = .ok nodes) :
    Node.AllIn (fun node => node.Retried → ∃ e, Event.retry node.pos e ∈ events source) nodes := by
  obtain ⟨after, hreads⟩ := tokenize_reads h
  obtain ⟨s, hs, hlists⟩ := events_lists h
  refine (Ledger.allIn_retried hreads.spans hlists).imp ?_
  intro node hn hr
  obtain ⟨e, he⟩ := hn hr
  exact ⟨e, by rwa [← hs, List.mem_reverse]⟩

end ShellLex
