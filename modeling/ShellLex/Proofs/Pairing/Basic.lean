import ShellLex.Proofs.Ends
import ShellLex.Proofs.Tree
/-!
Two runs side by side. A pairing says when two scanners stand for each other: the same bytes follow
in both, though maybe at another offset, and what is kept of earlier readings may differ. A side may
be allowed to run out of levels where the other does not.
-/
namespace ShellLex

def LexError.move (f : Nat → Nat) (e : LexError) : LexError := { e with pos := f e.pos }

@[simp] theorem LexError.move_isTooDeep (f : Nat → Nat) (e : LexError) :
    (e.move f).isTooDeep = e.isTooDeep := rfl

/-- When a scanner on the left stands for one on the right. -/
structure Pairing where
  /-- The scanners that stand for each other, if their states are to be related. -/
  Rel : (State → State → Prop) → Scanner → Scanner → Prop
  /-- Where an offset on the left is found on the right. -/
  move : Nat → Nat
  /-- What the left scanner keeps if its side alone runs out of levels; that side never may if it
  can keep nothing. -/
  Spent : Scanner → Prop
  /-- Whether the right side may be the only one to run out of levels. -/
  Lacks : Prop
  rest : ∀ {related s t}, Rel related s t → t.rest = s.rest
  pos : ∀ {related s t}, Rel related s t → t.pos = move s.pos
  state : ∀ {related s t}, Rel related s t → related s.state t.state
  skip : ∀ {related s t} (size : Nat), Rel related s t → Rel related (s.skip size) (t.skip size)
  enter : ∀ {related related' s t} {state state' : State}, Rel related s t →
    related' state state' → Rel related' (s.enter state) (t.enter state')
  note : ∀ {related s t} (event event' : Event), Rel related s t →
    Rel related (s.note event) (t.note event')
  rewind : ∀ {related s t u v}, Rel related s t → Rel related u v →
    Rel related { u with rest := s.rest, pos := s.pos } { v with rest := t.rest, pos := t.pos }
  leave : ∀ {s} (state : State), Spent s → Spent (s.enter state)

namespace Pairing

variable {P : Pairing} {related : State → State → Prop} {α β : Type} {f : α → α} {g : β → β}
  {s t : Scanner}

theorem role? (h : P.Rel related s t) : t.role? = s.role? := by
  rw [Scanner.role?, P.rest h, Scanner.role?]

/-- The runs end alike, the right one with what `f` makes of the answer on the left, or one of them
alone runs out of levels and may do so. -/
inductive Match (P : Pairing) (related : State → State → Prop) {α : Type} (f : α → α) :
    (left right : EStateM.Result LexError Scanner α) → Prop where
  | ok {a s t} (h : P.Rel related s t) : Match P related f (.ok a s) (.ok (f a) t)
  | error {e s t} (h : P.Rel related s t) :
      Match P related f (.error e s) (.error (e.move P.move) t)
  | spent {e s right} (hd : e.isTooDeep) (h : P.Spent s) : Match P related f (.error e s) right
  | lacking {left e t} (hd : e.isTooDeep) (h : P.Lacks) : Match P related f left (.error e t)

def Alike (P : Pairing) (related : State → State → Prop) (f : α → α) (left right : Scan α) : Prop :=
  ∀ s t, P.Rel related s t → P.Match related f (left s) (right t)

theorem Match.bind {left right : Scan α} {next next' : α → Scan β}
    (h : P.Match related f (left s) (right t))
    (k : ∀ a, P.Alike related g (next a) (next' (f a))) :
    P.Match related g ((left >>= next) s) ((right >>= next') t) := by
  change P.Match related g (EStateM.bind left next s) (EStateM.bind right next' t)
  unfold EStateM.bind
  generalize left s = l at h ⊢
  generalize right t = r at h ⊢
  cases h with
  | ok h => exact k _ _ _ h
  | error h => exact .error h
  | spent hd h => exact .spent hd h
  | lacking hd h => exact .lacking hd h

theorem Alike.bind {left right : Scan α} {next next' : α → Scan β}
    (h : P.Alike related f left right) (k : ∀ a, P.Alike related g (next a) (next' (f a))) :
    P.Alike related g (left >>= next) (right >>= next') :=
  fun s t hst => (h s t hst).bind k

theorem alike_pure {a b : α} (h : f a = b) : P.Alike related f (pure a) (pure b) := by
  subst h
  exact fun _ _ h => .ok h

theorem Alike.map {left right : Scan α} {u v : α → β} (h : P.Alike related f left right)
    (k : ∀ a, g (u a) = v (f a)) : P.Alike related g (u <$> left) (v <$> right) := by
  change P.Alike related g (left >>= fun a => pure (u a)) (right >>= fun b => pure (v b))
  exact h.bind fun a => alike_pure (k a)

/-- The scanners are read off, and what goes on does so from the same scanners. -/
theorem match_get {next next' : Scanner → Scan α}
    (k : ∀ s t, P.Rel related s t → P.Match related f (next s s) (next' t t)) :
    P.Alike related f (get >>= next) (get >>= next') :=
  fun s t h => k s t h

/-- Once the scanners are read off, what goes on is alike at any other place as well. -/
theorem alike_get {next next' : Scanner → Scan α}
    (k : ∀ s t, P.Rel related s t → P.Alike related f (next s) (next' t)) :
    P.Alike related f (get >>= next) (get >>= next') :=
  match_get fun s t h => k s t h s t h

theorem alike_fail (cause : Cause) {pos pos' : Nat} (h : pos' = P.move pos) :
    P.Alike related f (Scan.fail cause pos : Scan α) (Scan.fail cause pos') := by
  subst h
  exact fun _ _ h => .error h

theorem alike_internal (reason : String) :
    P.Alike related f (Scan.internal reason : Scan α) (Scan.internal reason) :=
  alike_get fun _ _ h => alike_fail _ (P.pos h)

theorem alike_take (size : Nat) (kind : Kind) :
    P.Alike related (Leaf.move P.move) (Scan.take size kind) (Scan.take size kind) := by
  intro s t h
  have leaf : Leaf.move P.move ⟨kind, s.rest.take size, s.pos⟩ =
      ⟨kind, t.rest.take size, t.pos⟩ := by
    rw [Leaf.move, P.rest h, P.pos h]
  change P.Match related (Leaf.move P.move)
    (.ok (⟨kind, s.rest.take size, s.pos⟩ : Leaf) (s.skip size))
    (.ok (⟨kind, t.rest.take size, t.pos⟩ : Leaf) (t.skip size))
  rw [← leaf]
  exact .ok (P.skip size h)

theorem alike_takeWhile (accept : UInt8 → Bool) (kind : Kind) :
    P.Alike related (Leaf.move P.move) (Scan.takeWhile accept kind)
      (Scan.takeWhile accept kind) := by
  apply alike_get
  intro s t h
  rw [P.rest h]
  split
  · exact alike_internal _
  · exact alike_take _ _

theorem alike_delimiter? (text : List UInt8) :
    P.Alike related (Option.map (Leaf.move P.move)) (Scan.delimiter? text)
      (Scan.delimiter? text) := by
  apply alike_get
  intro s t h
  rw [P.rest h]
  split
  · exact (alike_take _ _).map fun leaf => rfl
  · exact alike_pure rfl

theorem alike_opened (d : Delimiter) :
    P.Alike related (Leaf.move P.move) (Scan.opened d) (Scan.opened d) := by
  cases d with
  | arithmeticGroup => exact alike_take _ _
  | doubleQuote | commandSubstitution | arithmetic =>
    apply (alike_delimiter? _).bind
    intro leaf
    cases leaf with
    | none => exact alike_internal _
    | some leaf => exact alike_pure rfl

theorem alike_closed (d : Delimiter) {pos pos' : Nat} (h : pos' = P.move pos) :
    P.Alike related (Leaf.move P.move) (Scan.closed d pos) (Scan.closed d pos') := by
  apply (alike_delimiter? _).bind
  intro leaf
  cases leaf with
  | none =>
    apply alike_get
    intro s t hst
    rw [P.rest hst]
    split
    · exact alike_internal _
    · exact alike_fail _ h
  | some leaf => exact alike_pure rfl

theorem alike_enter (state : State) : P.Alike Eq id (Scan.enter state) (Scan.enter state) :=
  fun _ _ h => .ok (P.enter h rfl)

/-- Whatever the states were, they are the same inside, and again what they were outside. -/
theorem alike_within {left right : Scan α} (state : State) (h : P.Alike Eq f left right) :
    P.Alike related f (Scan.within state left) (Scan.within state right) := by
  intro s t hst
  have hrun := h _ _ (P.enter hst (rfl : state = state))
  unfold Scan.within
  generalize left (s.enter state) = l at hrun ⊢
  generalize right (t.enter state) = r at hrun ⊢
  cases hrun with
  | ok h => exact .ok (P.enter h (P.state hst))
  | error h => exact .error (P.enter h (P.state hst))
  | spent hd h => exact .spent hd (P.leave _ h)
  | lacking hd h => exact .lacking hd h

theorem alike_manyWithin {more : Scanner → Bool} {read read' : Scan Node}
    (hm : ∀ s t, P.Rel related s t → more t = more s)
    (h : ∀ s t, P.Rel related s t → more s = true →
      P.Match related (Node.move P.move) (read s) (read' t))
    (budget : List UInt8) (nodes : List Node) :
    P.Alike related (Node.moveAll P.move) (Scan.manyWithin more read budget nodes)
      (Scan.manyWithin more read' budget (Node.moveAll P.move nodes)) := by
  induction budget generalizing nodes with
  | nil =>
    apply alike_get
    intro s t hst
    rw [hm s t hst]
    split
    · exact alike_internal _
    · exact alike_pure (Node.moveAll_reverse nodes)
  | cons b budget ih =>
    apply match_get
    intro s t hst
    rw [hm s t hst]
    cases hs : more s with
    | false => exact alike_pure (Node.moveAll_reverse nodes) s t hst
    | true => exact (h s t hst hs).bind fun node => ih (node :: nodes)

theorem alike_many {more : Scanner → Bool} {read read' : Scan Node}
    (hm : ∀ s t, P.Rel related s t → more t = more s)
    (h : ∀ s t, P.Rel related s t → more s = true →
      P.Match related (Node.move P.move) (read s) (read' t)) :
    P.Alike related (Node.moveAll P.move) (Scan.many more read) (Scan.many more read') := by
  apply alike_get
  intro s t hst
  rw [P.rest hst]
  exact alike_manyWithin hm h s.rest []

end Pairing

end ShellLex
