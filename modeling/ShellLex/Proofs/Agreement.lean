import ShellLex.Proofs.Elements
import ShellLex.Proofs.Pairing.Routines
/-!
Two runs of a routine side by side. The one on the left may recall outcomes from a table and may
run out of levels; the one on the right reads every `$((` afresh. They do the same unless the left
one fails for its levels, in any two states where the state does not matter.
-/
namespace ShellLex

/-- How elements are read if constructs may lie one in another without end. As each of them takes
a byte, there are levels enough if there are as many as bytes. -/
def Scan.unlimited (form : Enclosure) : Scan Node := fun s => part (deeper s.rest.length) form s

/-- The outcome is that of reading the `$((` at `pos` afresh and with no limit, in any state. -/
def Outcome.Afresh (source : List UInt8) (pos : Nat) (outcome : Outcome) : Prop :=
  ∀ t : Scanner, t.Fits source False → t.pos = pos →
    Scan.Ends (Scan.expansion (some Scan.unlimited)) t
      (fun node u => u.Fits source False ∧ u.state = t.state ∧ outcome = ⟨.ok node, u.pos⟩)
      (fun e u => u.Fits source False ∧ u.state = t.state ∧ outcome = ⟨.error e, u.pos⟩)

structure Scanner.Sound (source : List UInt8) (recalls : Prop) (s : Scanner) : Prop where
  fits : s.Fits source recalls
  entries : ∀ table, s.outcomes = some table → ∀ pos outcome, (pos, outcome) ∈ table →
    outcome.Afresh source pos

/-- Two scanners at one place, of which the right one keeps no table. -/
structure Beside (source : List UInt8) (recalls : Prop) (related : State → State → Prop)
    (s t : Scanner) : Prop where
  sound : s.Sound source recalls
  afresh : t.Fits source False
  pos : t.pos = s.pos
  state : related s.state t.state

/-- The left run ends as the right one does, or for want of levels. -/
inductive Follows (source : List UInt8) (recalls : Prop) (related : State → State → Prop)
    {α : Type} : (left right : EStateM.Result LexError Scanner α) → Prop where
  | ok {a s t} (h : Beside source recalls related s t) :
      Follows source recalls related (.ok a s) (.ok a t)
  | error {e s t} (h : Beside source recalls related s t) :
      Follows source recalls related (.error e s) (.error e t)
  | tooDeep {e s right} (hd : e.isTooDeep) (h : s.Sound source recalls) :
      Follows source recalls related (.error e s) right

def Scan.Alike (source : List UInt8) (recalls : Prop) (related : State → State → Prop) {α : Type}
    (left right : Scan α) : Prop :=
  ∀ s t, Beside source recalls related s t → Follows source recalls related (left s) (right t)

/-- The elements one level deeper are read alike. The state matters in a script only. -/
def Inner.Alike (source : List UInt8) (recalls : Prop) : (left right : Inner) → Prop
  | none, _ => True
  | some _, none => False
  | some read, some read' => ∀ form related s t, (form = .substitution → related = Eq) →
      Beside source recalls related s t → form.Ready s →
      Follows source recalls related (read form s) (read' form t)

structure Inner.Follows (source : List UInt8) (recalls : Prop) (left right : Inner) : Prop where
  alike : left.Alike source recalls right
  kept : recalls → right = some Scan.unlimited ∧ ∃ levels, left.Obeys source recalls levels

variable {source : List UInt8} {recalls : Prop} {related : State → State → Prop}

namespace Scanner.Sound

variable {s t : Scanner}

theorem skip (h : s.Sound source recalls) (size : Nat) : (s.skip size).Sound source recalls :=
  ⟨h.fits.skip size, h.entries⟩

theorem enter (h : s.Sound source recalls) (state : State) : (s.enter state).Sound source recalls :=
  ⟨h.fits.enter state, by simpa using h.entries⟩

theorem note (h : s.Sound source recalls) (event : Event) : (s.note event).Sound source recalls :=
  ⟨h.fits.note event, h.entries⟩

theorem rewind (h : s.Sound source recalls) (k : t.Sound source recalls) :
    Sound source recalls { t with rest := s.rest, pos := s.pos } :=
  ⟨h.fits.rewind k.fits, k.entries⟩

theorem record {pos : Nat} {outcome : Outcome} (h : s.Sound source recalls)
    (k : recalls → Kept source recalls pos outcome ∧ outcome.Afresh source pos) :
    (s.record pos outcome).Sound source recalls := by
  refine ⟨h.fits.record fun hr => (k hr).1, ?_⟩
  intro table ht p o hm
  obtain ⟨old, ho, rfl⟩ := Option.map_eq_some_iff.mp ht
  rcases List.mem_cons.mp hm with heq | hm
  · obtain ⟨rfl, rfl⟩ := Prod.mk.inj heq
    exact (k (h.fits.outcomes old ho).1).2
  · exact h.entries old ho p o hm

end Scanner.Sound

namespace Scanner.Fits

variable {t : Scanner}

theorem outcomes_eq_none (h : t.Fits source False) : t.outcomes = none := by
  cases ho : t.outcomes with
  | none => rfl
  | some table => exact (h.outcomes table ho).1.elim

theorem outcome?_eq_none (h : t.Fits source False) : t.outcome? = none := by
  simp [Scanner.outcome?, h.outcomes_eq_none]

theorem record_eq (h : t.Fits source False) (pos : Nat) (outcome : Outcome) :
    t.record pos outcome = t := by
  simp only [Scanner.record, h.outcomes_eq_none, Option.map_none]
  rw [← h.outcomes_eq_none]

end Scanner.Fits

namespace Beside

variable {s t u v : Scanner}

theorem rest (h : Beside source recalls related s t) : t.rest = s.rest := by
  rw [h.afresh.rest, h.sound.fits.rest, h.pos]

theorem role? (h : Beside source recalls related s t) : t.role? = s.role? := by
  simp [Scanner.role?, h.rest]

theorem state_eq (h : Beside source recalls Eq s t) : t.state = s.state :=
  h.state.symm

theorem skip (h : Beside source recalls related s t) (size : Nat) :
    Beside source recalls related (s.skip size) (t.skip size) := by
  refine ⟨h.sound.skip size, h.afresh.skip size, ?_, h.state⟩
  simp [Scanner.skip, h.pos, h.rest]

theorem note (h : Beside source recalls related s t) (event event' : Event) :
    Beside source recalls related (s.note event) (t.note event') :=
  ⟨h.sound.note event, h.afresh.note event', h.pos, h.state⟩

/-- The relation of the states is free to change with the states. -/
theorem enter {related' : State → State → Prop} (h : Beside source recalls related s t)
    {state state' : State} (hs : related' state state') :
    Beside source recalls related' (s.enter state) (t.enter state') :=
  ⟨h.sound.enter state, h.afresh.enter state', by simp [h.pos], by simpa using hs⟩

theorem rewind (h : Beside source recalls related s t) (k : Beside source recalls related u v) :
    Beside source recalls related { u with rest := s.rest, pos := s.pos }
      { v with rest := t.rest, pos := t.pos } :=
  ⟨h.sound.rewind k.sound, h.afresh.rewind k.afresh, h.pos, k.state⟩

end Beside

/-- The scanners beside each other, nothing moved. `spent` says whether the left side may be the
only one to run out of levels, `lacks` whether the right side may. -/
def Pairing.beside (source : List UInt8) (recalls spent lacks : Prop) : Pairing where
  Rel := Beside source recalls
  move := id
  Spent s := spent ∧ s.Sound source recalls
  Lacks := lacks
  rest h := h.rest
  pos h := h.pos
  state h := h.state
  skip size h := h.skip size
  enter h hs := h.enter hs
  note event event' h := h.note event event'
  rewind h k := h.rewind k
  leave state h := ⟨h.1, h.2.enter state⟩

section Match

variable {α : Type} {left right : EStateM.Result LexError Scanner α} {f : α → α}

theorem follows_of_match (hf : ∀ a, f a = a)
    (h : (Pairing.beside source recalls True False).Match related f left right) :
    Follows source recalls related left right := by
  cases h with
  | @ok a _ _ h =>
    rw [hf a]
    exact .ok h
  | error h => exact .error h
  | spent hd h => exact .tooDeep hd h.2
  | lacking _ h => exact h.elim

theorem match_of_follows (hf : ∀ a, f a = a) (h : Follows source recalls related left right) :
    (Pairing.beside source recalls True False).Match related f left right := by
  cases h with
  | @ok a _ t h =>
    have hm : (Pairing.beside source recalls True False).Match related f _ (.ok (f a) t) := .ok h
    rwa [hf a] at hm
  | error h => exact .error h
  | tooDeep hd h => exact .spent hd ⟨trivial, h⟩

end Match

theorem Inner.Alike.deeper {left right : Inner} (h : left.Alike source recalls right) :
    (Pairing.beside source recalls True False).Deeper left right := by
  match left, right, h with
  | none, none, _ => trivial
  | none, some _, _ => exact fun _ _ _ hst => ⟨trivial, hst.sound⟩
  | some read, some read', h =>
    intro form related s t hf hst hr
    exact match_of_follows Node.move_id (h form related s t hf hst hr)

end ShellLex
