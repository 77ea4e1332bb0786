import ShellLex.Proofs.Shift
import ShellLex.Proofs.Straight
import ShellLex.Proofs.Transitions
/-!
Scripts in two halves. What ends with a line end is read alike whatever follows it, and a lexer that
has read it goes on as one that starts there, in the state that the first half left.
-/
namespace ShellLex

namespace Reads

variable {a : List UInt8} {recalls : Prop} {levels pos stop : Nat} {before after : State}
  {nodes : List Node}

/-- A line end is one whatever follows it. -/
theorem newLine_append {l : Leaf}
    (h : Reads a recalls levels (.element .substitution before after) pos [.leaf l] stop)
    (hl : l.kind = .newLine) (b : List UInt8) :
    Reads (a ++ b) recalls levels (.element .substitution before after) pos [.leaf l] stop := by
  cases h with
  | @lexeme _ _ _ kind size hx =>
    obtain rfl : kind = .newLine := hl
    generalize hd : a.drop pos = bytes at hx ⊢
    cases hx with
    | @newline _ first bytes hfirst =>
      have hlt : pos < a.length := by
        have hne : a.drop pos ≠ [] := by simp [hd]
        simpa using hne
      have hd' : (a ++ b).drop pos = first :: (bytes ++ b) := by
        rw [List.drop_append_of_le_length (Nat.le_of_lt hlt), hd, List.cons_append]
      have hx : Lexes (.element .substitution before (if before = .command then .normal else before))
          ((a ++ b).drop pos) .newLine 1 := by
        rw [hd']
        exact .newline hfirst
      have leaf : Reads (a ++ b) recalls levels _ pos _ _ := .lexeme hx
      rw [hd'] at leaf
      exact leaf
  | refer hg => exact hg.elim
  | reserved hr =>
    obtain ⟨l', kind, rfl, _, hk, rfl⟩ := Scan.reserved?_eq_some hr
    obtain rfl : kind = .newLine := hl
    rcases Scan.reservation?_eq_some hk with ⟨hk, _⟩ | ⟨hk, _⟩ | ⟨hk, _⟩ <;> nomatch hk
  | esac => nomatch hl

theorem overlap_append (a b : List UInt8) : Overlap a (a ++ b) 0 a.length id where
  add _ _ := rfl
  common {pos} _ hpos :=
    ⟨a.drop pos, [], b, by simp, by simp, List.drop_append_of_le_length hpos⟩

/-- A script that ends with a line end is the beginning of any script that goes on from it. -/
theorem script_append (h : Reads a recalls levels (.script before after) 0 nodes a.length)
    (hl : a = [] ∨ ∃ l, nodes.getLast? = some (.leaf l) ∧ l.kind = .newLine) (b : List UInt8) :
    Reads (a ++ b) recalls levels (.script before after) 0 nodes a.length := by
  generalize hs : a.length = stop at h ⊢
  cases h with
  | lexeme h => exact h.lexical.elim
  | refer hg => exact hg.elim
  | emptyScript => exact .emptyScript
  | @scriptSnoc _ _ _ _ _ nodes middle node _ first last =>
    have hlt := last.lt_of_singleton
    have hne : a ≠ [] := by
      rintro rfl
      simp at hs
      omega
    obtain ⟨l, hlast, hk⟩ := hl.resolve_left hne
    obtain rfl : node = .leaf l := by simpa using hlast
    have moved := first.transfer (overlap_append a b) (Nat.le_refl _) (Or.inl (by omega))
    rw [Node.moveAll_id] at moved
    exact .scriptSnoc moved (last.newLine_append hk b)

end Reads

namespace Scan

variable {source : List UInt8} {recalls : Prop} {s t u : Scanner} {node : Node}
  {nodes : List Node}

inductive Elements : (s : Scanner) → List Node → (t : Scanner) → Prop where
  | nil {s : Scanner} : Elements s [] s
  | cons {s t u : Scanner} {node nodes} (h : element s = .ok node t) (hn : Elements t nodes u) :
      Elements s (node :: nodes) u

theorem Elements.snoc (h : Elements s nodes t) (hn : element t = .ok node u) :
    Elements s (nodes ++ [node]) u := by
  induction h with
  | nil => exact .cons hn .nil
  | cons h _ ih => exact .cons h (ih hn)

theorem rest_ne_nil_of_element (h : element s = .ok node t) : s.rest ≠ [] := by
  intro hr
  have hfail : Ends element s (fun _ _ => False) fun _ _ => True := by
    simp only [element, scriptPart, ends_bind, ends_get, hr]
    trivial
  exact hfail.of_ok h

/-- A passage that holds of each element holds of all. -/
theorem Elements.passes {P : Passage} (hd : ∀ levels, P.Denies (deeper levels))
    (h : Elements s nodes t) : P.Passes nestingLimit s nodes t := by
  induction h with
  | nil => exact P.nil
  | cons h _ ih => exact P.append ((P.element_along hd _).of_ok h) ih

/-- The lexer reads an element that is derived, with whatever table it keeps, if nothing in the
element was read twice. -/
theorem element_of_reads {stop : Nat} {after : State} (hs : s.Sound source True)
    (h : Reads source False nestingLimit (.element .substitution s.state after) s.pos [node] stop)
    (hd : node.All (¬ Node.Retried ·)) :
    ∃ t, element s = .ok node t ∧ t.Sound source True ∧ t.pos = stop ∧ t.state = after := by
  have hat : Scanner.At source s.pos s.state { s with outcomes := none } :=
    ⟨hs.fits.forget, rfl, rfl⟩
  have runs := h.runs (.limited source) ⟨hd, trivial⟩
  obtain ⟨v, hrun, hv⟩ := (runs s.state after ⟨rfl, rfl⟩ node rfl _ hat).run
  have pair := element_limited source s { s with outcomes := none } ⟨hs, hs.fits.forget, rfl, rfl⟩
  have hrun' : element { s with outcomes := none } = .ok node v := hrun
  rw [hrun'] at pair
  generalize element s = l at pair ⊢
  generalize hr : EStateM.Result.ok node v = r at pair
  cases pair with
  | @ok found t _ ht =>
    obtain ⟨rfl, rfl⟩ := EStateM.Result.ok.inj hr
    exact ⟨t, by rw [Node.move_id], ht.sound, ht.pos.symm.trans hv.pos, ht.state.trans hv.state⟩
  | error => nomatch hr
  | spent _ h => exact h.1.elim
  | lacking => nomatch hr

theorem elements_of_reads {stop : Nat} {after : State} (hs : s.Sound source True)
    (h : Reads source False nestingLimit (.script s.state after) s.pos nodes stop)
    (hd : Node.AllIn (¬ Node.Retried ·) nodes) :
    ∃ t, Elements s nodes t ∧ t.Sound source True ∧ t.pos = stop ∧ t.state = after := by
  generalize hg : Goal.script s.state after = goal at h
  generalize hp : s.pos = pos at h
  generalize hlevels : nestingLimit = levels at h
  induction h generalizing after with
  | emptyScript =>
    obtain ⟨rfl, rfl⟩ := Goal.script.inj hg
    exact ⟨s, .nil, hs, hp, rfl⟩
  | scriptSnoc _ hn ih =>
    obtain ⟨rfl, rfl⟩ := Goal.script.inj hg
    obtain ⟨first, last⟩ := Node.allIn_append.mp hd
    obtain ⟨t, ht, hsound, rfl, rfl⟩ := ih first rfl hp hlevels
    subst hlevels
    obtain ⟨u, hu, hend⟩ := element_of_reads hsound hn last.1
    exact ⟨u, ht.snoc hu, hend⟩
  | lexeme h =>
    subst hg
    exact h.lexical.elim
  | refer hg' =>
    subst hg
    exact hg'.elim
  | _ => nomatch hg

/-- What a loop over elements comes to depends neither on the budget, if it is enough, nor on what
was read before. -/
theorem manyWithin_element (hs : s.Fits source recalls) {budget budget' : List UInt8}
    (hb : s.rest.length ≤ budget.length) (hb' : s.rest.length ≤ budget'.length)
    (latest : List Node) :
    manyWithin (!·.rest.isEmpty) element budget latest s =
      ((latest.reverse ++ ·) <$> manyWithin (!·.rest.isEmpty) element budget' []) s := by
  refine manyWithin_eq (fun t => t.Fits source recalls) (fun t hm => by simpa using hm) ?_ hs hb hb'
    latest
  intro t node u ht hm hrun
  have read := (element_ends ht (by simpa using hm)).of_ok hrun
  exact ⟨read.fits, ht.length_lt read.fits read.reads.lt_of_singleton⟩

/-- A script goes on from where some of its elements end. -/
theorem Elements.script_eq (h : Elements s nodes t) (hs : s.Fits source recalls) :
    script s = ((nodes ++ ·) <$> script) t := by
  induction h with
  | @nil s =>
    rw [map_run]
    cases script s <;> rfl
  | @cons s t u node nodes h hn ih =>
    have hr := rest_ne_nil_of_element h
    have hm : (!s.rest.isEmpty) = true := by simp [hr]
    obtain ⟨b, bytes, hb⟩ := List.exists_cons_of_ne_nil hr
    have read := (element_ends hs hr).of_ok h
    have hlt := hs.length_lt read.fits read.reads.lt_of_singleton
    have hl : t.rest.length ≤ bytes.length := by
      rw [hb, List.length_cons] at hlt
      omega
    have step : script s = manyWithin (!·.rest.isEmpty) element s.rest [] s := rfl
    have tail : script t = manyWithin (!·.rest.isEmpty) element t.rest [] t := rfl
    have rest := ih read.fits
    rw [tail, map_run] at rest
    rw [step, hb, manyWithin_more hm h, manyWithin_element read.fits hl (Nat.le_refl _), map_run,
      rest, map_run]
    cases script u <;> rfl

end Scan

def Answer.move (f : Nat → Nat) : Answer → Answer
  | .ok node => .ok (node.map (Node.move f))
  | .error e => .error (e.move f)

inductive Call where
  | get
  | next
  deriving DecidableEq, Repr

namespace Lexer

def call (lexer : Lexer) : Call → Answer × Lexer
  | .get => lexer.get
  | .next => lexer.next

def calls : List Call → Lexer → List Answer × Lexer
  | [], lexer => ([], lexer)
  | c :: cs, lexer =>
    let (answer, after) := lexer.call c
    let (answers, last) := calls cs after
    (answer :: answers, last)

def startIn (state : State) (source : List UInt8) : Lexer :=
  ⟨source, { Scanner.start source with state := state }, false⟩

variable {lexer lexer' : Lexer} {s t : Scanner} {node : Node} {nodes : List Node} {shift : Nat}

theorem calls_append (cs cs' : List Call) (lexer : Lexer) :
    calls (cs ++ cs') lexer =
      ((calls cs lexer).1 ++ (calls cs' (calls cs lexer).2).1, (calls cs' (calls cs lexer).2).2) := by
  induction cs generalizing lexer with
  | nil => rfl
  | cons c cs ih => simp only [List.cons_append, calls, ih]

theorem call_element {source : List UInt8} (h : Scan.element s = .ok node t) (c : Call) :
    (Lexer.mk source s false).call c = (.ok (some node), ⟨source, t, false⟩) := by
  have hne : s.rest.isEmpty = false := by simpa using Scan.rest_ne_nil_of_element h
  have hget : (Lexer.mk source s false).get = (.ok (some node), ⟨source, t, false⟩) := by
    simp [get, hne, h]
  cases c with
  | get => exact hget
  | next => simp [call, next, hget]

/-- Whatever the calls are, they answer the elements that lie ahead. -/
theorem calls_elements {source : List UInt8} (h : Scan.Elements s nodes t) (cs : List Call)
    (hl : cs.length = nodes.length) :
    calls cs ⟨source, s, false⟩ = (nodes.map (.ok ∘ some), ⟨source, t, false⟩) := by
  induction h generalizing cs with
  | nil =>
    obtain rfl := List.length_eq_zero_iff.mp hl
    rfl
  | cons h _ ih =>
    obtain ⟨c, cs, rfl⟩ := List.exists_cons_of_length_eq_add_one hl
    have last := ih cs (Nat.succ.inj hl)
    simp only [calls, call_element h, last, List.map_cons, Function.comp]

structure Beyond (shift : Nat) (lexer lexer' : Lexer) : Prop where
  scanner : Shifted shift Eq lexer.scanner lexer'.scanner
  failed : lexer'.failed = lexer.failed

theorem get_beyond (h : Beyond shift lexer lexer') :
    lexer'.get.1 = lexer.get.1.move (shift + ·) ∧ Beyond shift lexer.get.2 lexer'.get.2 := by
  have run := Scan.element_shift shift _ _ h.scanner
  unfold get
  rw [h.scanner.rest]
  split
  · exact ⟨rfl, h⟩
  · generalize Scan.element lexer.scanner = l at run ⊢
    generalize Scan.element lexer'.scanner = r at run ⊢
    cases run with
    | ok hst => exact ⟨rfl, hst, h.failed⟩
    | error hst => exact ⟨rfl, hst, h.failed⟩
    | spent _ h => exact h.elim
    | lacking _ h => exact h.elim

theorem call_beyond (h : Beyond shift lexer lexer') (c : Call) :
    (lexer'.call c).1 = (lexer.call c).1.move (shift + ·) ∧
      Beyond shift (lexer.call c).2 (lexer'.call c).2 := by
  have hget := get_beyond h
  cases c with
  | get => exact hget
  | next =>
    change lexer'.next.1 = lexer.next.1.move _ ∧ Beyond shift lexer.next.2 lexer'.next.2
    unfold next
    rw [h.failed]
    split
    · exact ⟨rfl, h⟩
    · generalize lexer.get = l at hget ⊢
      generalize lexer'.get = r at hget ⊢
      obtain ⟨answer, after⟩ := l
      obtain ⟨answer', after'⟩ := r
      obtain ⟨heq, hafter⟩ := hget
      obtain rfl : answer' = answer.move _ := heq
      cases answer with
      | ok node => exact ⟨rfl, hafter⟩
      | error e => exact ⟨rfl, hafter.scanner, rfl⟩

theorem calls_beyond (h : Beyond shift lexer lexer') (cs : List Call) :
    (calls cs lexer').1 = (calls cs lexer).1.map (Answer.move (shift + ·)) ∧
      Beyond shift (calls cs lexer).2 (calls cs lexer').2 := by
  induction cs generalizing lexer lexer' with
  | nil => exact ⟨rfl, h⟩
  | cons c cs ih =>
    obtain ⟨hanswer, hafter⟩ := call_beyond h c
    obtain ⟨hanswers, hlast⟩ := ih hafter
    refine ⟨?_, hlast⟩
    rw [calls, calls, List.map_cons, ← hanswer, ← hanswers]

end Lexer

section Halves

variable {a b : List UInt8} {nodes : List Node} {state : State} {t : Scanner}

/-- The lexer over the first half and more comes to where that half ends, and what its table holds
is of the first half. -/
theorem elements_append (h : tokenize a = .ok nodes)
    (hr : ∀ pos e, Event.retry pos e ∉ events a)
    (hl : a = [] ∨ ∃ l, nodes.getLast? = some (.leaf l) ∧ l.kind = .newLine) :
    ∃ state, ∀ b, ∃ t, Scan.Elements (.start (a ++ b)) nodes t ∧
      Shifted a.length Eq (Lexer.startIn state b).scanner t := by
  obtain ⟨plain, state, hreads⟩ := tokenize_straight h hr
  refine ⟨state, fun b => ?_⟩
  have reads := hreads.script_append hl b
  have hs : (Scanner.start (a ++ b)).Sound (a ++ b) True := Lexer.Reachable.start.sound
  obtain ⟨t, ht, hsound, hpos, hstate⟩ := Scan.elements_of_reads hs reads plain
  have hahead : (Scanner.start (a ++ b)).Ahead := nofun
  have straight := (ht.passes (Passage.straight_denies (a ++ b)) ⟨rfl, Nat.zero_le _⟩).2 hahead
    (reads.straight plain)
  refine ⟨t, ht, ?_, hpos, hstate.symm, ⟨rfl, straight.kept rfl⟩, ?_⟩
  · rw [hsound.fits.rest, hpos, List.drop_left]
    rfl
  · intro pos
    cases he : t.held? (a.length + pos) with
    | none => rfl
    | some outcome =>
      have := straight.ahead _ _ he
      omega

theorem calls_of_elements (h : Scan.Elements (.start (a ++ b)) nodes t)
    (hs : Shifted a.length Eq (Lexer.startIn state b).scanner t) (cs further : List Call)
    (hcs : cs.length = nodes.length) :
    let run := Lexer.calls (cs ++ further) (.start (a ++ b))
    let fresh := Lexer.calls further (.startIn state b)
    run.1 = nodes.map (.ok ∘ some) ++ fresh.1.map (Answer.move (a.length + ·)) ∧
    run.2.pos = a.length + fresh.2.pos ∧ run.2.state = fresh.2.state := by
  have first : Lexer.calls cs (.start (a ++ b)) = _ := Lexer.calls_elements h cs hcs
  have beyond : Lexer.Beyond a.length (.startIn state b) ⟨a ++ b, t, false⟩ := ⟨hs, rfl⟩
  obtain ⟨hanswers, hlast⟩ := Lexer.calls_beyond beyond further
  rw [Lexer.calls_append, first]
  exact ⟨by rw [hanswers], hlast.scanner.pos, hlast.scanner.state.symm⟩

theorem tokenize_of_elements (h : Scan.Elements (.start (a ++ b)) nodes t)
    (hs : Shifted a.length Eq (Scanner.start b) t) :
    tokenize (a ++ b) =
      match tokenize b with
      | .ok nodes' => .ok (nodes ++ Node.moveAll (a.length + ·) nodes')
      | .error e => .error (e.move (a.length + ·)) := by
  have script := h.script_eq (Scanner.start_fits (a ++ b))
  have run := Scan.script_shift a.length _ _ hs
  rw [Scan.map_run] at script
  unfold tokenize
  rw [script]
  generalize Scan.script (Scanner.start b) = l at run ⊢
  generalize Scan.script t = r at run ⊢
  cases run with
  | ok => rfl
  | error => rfl
  | spent _ h => exact h.elim
  | lacking _ h => exact h.elim

/-- After a first half of a source that ends with a line end and had nothing read twice, all calls
answer what a lexer answers that begins there, with the offsets moved by the half. -/
theorem Lexer.calls_resume (h : tokenize a = .ok nodes)
    (hr : ∀ pos e, Event.retry pos e ∉ events a)
    (hl : a = [] ∨ ∃ l, nodes.getLast? = some (.leaf l) ∧ l.kind = .newLine) :
    ∃ state,
      (∀ cs, cs.length = nodes.length →
        let run := calls cs (.start a)
        run.1 = nodes.map (.ok ∘ some) ∧ run.2.pos = a.length ∧ run.2.state = state) ∧
      ∀ b,
        (∀ cs further, cs.length = nodes.length →
          let run := calls (cs ++ further) (.start (a ++ b))
          let fresh := calls further (.startIn state b)
          run.1 = nodes.map (.ok ∘ some) ++ fresh.1.map (Answer.move (a.length + ·)) ∧
          run.2.pos = a.length + fresh.2.pos ∧ run.2.state = fresh.2.state) ∧
        (state = .normal →
          tokenize (a ++ b) =
            match tokenize b with
            | .ok nodes' => .ok (nodes ++ Node.moveAll (a.length + ·) nodes')
            | .error e => .error (e.move (a.length + ·))) := by
  obtain ⟨state, helements⟩ := elements_append h hr hl
  refine ⟨state, fun cs hcs => ?_, fun b => ?_⟩
  · obtain ⟨t, ht, hshift⟩ := helements []
    obtain ⟨hanswers, hpos, hstate⟩ := calls_of_elements ht hshift cs [] hcs
    rw [List.append_nil, List.append_nil] at hanswers hpos hstate
    exact ⟨hanswers.trans (List.append_nil _), hpos, hstate⟩
  · obtain ⟨t, ht, hshift⟩ := helements b
    refine ⟨calls_of_elements ht hshift, ?_⟩
    rintro rfl
    exact tokenize_of_elements ht hshift

/-- Both halves have an expansion at their beginning, and the first one is kept in the table. -/
theorem Lexer.calls_resume_expansions :
    let a := ascii "$((1))\n"
    let expansion (digit : String) := Node.word [.enclosed .arithmetic ⟨.quote, ascii "$((", 0⟩
      [.leaf ⟨.variable, ascii digit, 3⟩] ⟨.quote, ascii "))", 4⟩]
    let nodes := [expansion "1", .leaf ⟨.newLine, ascii "\n", 6⟩]
    tokenize a = .ok nodes ∧
    (calls [.get, .next, .get] (.start (a ++ ascii "$((2))"))).1 =
      nodes.map (.ok ∘ some) ++ [.ok (some ((expansion "2").move (7 + ·)))] ∧
    tokenize (a ++ ascii "$((2))") = .ok (nodes ++ [(expansion "2").move (7 + ·)]) := by
  intro a expansion nodes
  have h : tokenize a = .ok nodes := by rfl
  have hb : tokenize (ascii "$((2))") = .ok [expansion "2"] := by rfl
  have hevents : events a = [.attempt 0, .transition .normal .command 6,
      .transition .command .normal 6] := by rfl
  have hr : ∀ pos e, Event.retry pos e ∉ events a := by simp [hevents]
  obtain ⟨state, halone, hover⟩ := calls_resume h hr (.inr ⟨_, rfl, rfl⟩)
  obtain rfl : state = .normal := (halone [.get, .next] rfl).2.2.symm.trans (by rfl)
  obtain ⟨hcalls, htokenize⟩ := hover (ascii "$((2))")
  refine ⟨h, (hcalls [.get, .next] [.get] rfl).1, ?_⟩
  rw [htokenize rfl, hb]
  rfl

end Halves

end ShellLex
