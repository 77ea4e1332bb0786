import ShellLex.Node.Json
import ShellLex.Proofs.Literals
/-!
JSON values and their compact text, of which trees need strings, arrays and objects only. The text
of a value tells the value, whatever follows it, so no value can be taken for another.
-/
namespace ShellLex.Json

inductive Value where
  | string (text : List Char)
  | array (values : List Value)
  | object (members : List (String × Value))
  deriving Repr

namespace Value

mutual

def write : Value → List Char
  | .string text => Json.string text
  | .array values => Json.array (writeAll values)
  | .object members => Json.object (writeMembers members)

def writeAll : List Value → List (List Char)
  | [] => []
  | value :: values => value.write :: writeAll values

def writeMembers : List (String × Value) → List (List Char)
  | [] => []
  | (name, value) :: members => member name value.write :: writeMembers members

end

/-- What holds of a value if it holds of the parts holds of all values. -/
@[elab_as_elim] theorem induct {p : Value → Prop} (string : ∀ text, p (.string text))
    (array : ∀ values, (∀ value ∈ values, p value) → p (.array values))
    (object : ∀ members, (∀ m ∈ members, p m.2) → p (.object members)) (value : Value) :
    p value := by
  match value with
  | .string text => exact string text
  | .array values => exact array values fun value _ => induct string array object value
  | .object members =>
    refine object members fun (name, value) hm => ?_
    have smaller : sizeOf value < sizeOf members := by
      have := List.sizeOf_lt_of_mem hm
      rw [Prod.mk.sizeOf_spec] at this
      omega
    exact induct string array object value

theorem writeAll_eq_map (values : List Value) : writeAll values = values.map write := by
  induction values with
  | nil => rfl
  | cons value values ih => rw [writeAll, ih, List.map_cons]

def writeMember (m : String × Value) : List Char := member m.1 m.2.write

theorem writeMembers_eq_map (members : List (String × Value)) :
    writeMembers members = members.map writeMember := by
  induction members with
  | nil => rfl
  | cons m members ih =>
    rw [writeMembers, ih, List.map_cons]
    rfl

end Value

section Strings

def escapes : List (Char × Char) :=
  [('"', '"'), ('\\', '\\'), ('\x08', 'b'), ('\x0c', 'f'), ('\n', 'n'), ('\r', 'r'), ('\t', 't')]

theorem escapes_valid : Text.Escapes escapes := ⟨by decide, by decide, by decide⟩

def unitNumber (c : Char) (number : List Char) : Prop :=
  number.length = 4 ∧ Text.hexValue number = c.toNat

theorem unitNumber_numbered : Text.Numbered unitNumber := by
  rintro c c' number number' r r' ⟨hl, hv⟩ ⟨hl', hv'⟩ heq
  obtain ⟨rfl, hr⟩ := List.append_inj heq (hl.trans hl'.symm)
  exact ⟨Char.toNat_inj.mp (hv.symm.trans hv'), hr⟩

/-- A control character has two digits at most, and is filled up to four. -/
theorem unitNumber_padded {c : Char} (h : c.toNat < 0x20) :
    unitNumber c (List.replicate (4 - (Nat.toDigits 16 c.toNat).length) '0' ++
      Nat.toDigits 16 c.toNat) := by
  have padded : ∀ n < 0x20,
      (List.replicate (4 - (Nat.toDigits 16 n).length) '0' ++ Nat.toDigits 16 n).length = 4 ∧
      Text.hexValue
        (List.replicate (4 - (Nat.toDigits 16 n).length) '0' ++ Nat.toDigits 16 n) = n := by
    decide
  exact padded _ h

theorem stringChar_spells (c : Char) : Text.Spells escapes unitNumber c (stringChar c) := by
  unfold stringChar
  split
  iterate 7 exact .escape (by decide)
  split
  · rename_i h
    exact .number (unitNumber_padded h)
  · refine .plain ?_
    simp_all [escapes]

theorem string_delimits : Text.SelfDelimiting string :=
  Text.quoted_delimits escapes_valid unitNumber_numbered stringChar_spells

end Strings

section Joined

variable {α : Type} {write : α → List Char} {as as' : List α} {close : Char} {r r' : List Char}

theorem intercalate_cons (first : List Char) (rest : List (List Char)) :
    List.intercalate [','] (first :: rest) = first ++ rest.flatMap (',' :: ·) := by
  induction rest generalizing first with
  | nil => simp [List.intercalate]
  | cons next rest ih =>
    rw [List.intercalate_cons_cons, ih, List.flatMap_cons, List.append_assoc]
    rfl

/-- Texts with commas between them, up to a mark that none of them begins with. -/
theorem joined_delimits (hc : close ≠ ',')
    (h : ∀ a ∈ as, ∀ a' r r', write a ++ r = write a' ++ r' → a = a' ∧ r = r')
    (hm : ∀ a r r', write a ++ r ≠ close :: r')
    (heq : List.intercalate [','] (as.map write) ++ close :: r =
      List.intercalate [','] (as'.map write) ++ close :: r') : as = as' ∧ r = r' := by
  cases as with
  | nil =>
    cases as' with
    | nil => exact ⟨rfl, (List.cons.inj heq).2⟩
    | cons a' as' =>
      rw [List.map_cons, intercalate_cons, List.append_assoc] at heq
      exact absurd heq.symm (hm a' _ r)
  | cons a as =>
    cases as' with
    | nil =>
      rw [List.map_cons, intercalate_cons, List.append_assoc] at heq
      exact absurd heq (hm a _ r')
    | cons a' as' =>
      simp only [List.map_cons, intercalate_cons, List.append_assoc, List.flatMap_map] at heq
      obtain ⟨rfl, htail⟩ := h a List.mem_cons_self _ _ _ heq
      have next (b : α) (hb : b ∈ as) (b' : α) (r r' : List Char)
          (heq : ',' :: write b ++ r = ',' :: write b' ++ r') : b = b' ∧ r = r' :=
        h b (List.mem_cons_of_mem _ hb) b' r r' (List.cons.inj heq).2
      have stop (b : α) (r r' : List Char) : ',' :: write b ++ r ≠ close :: r' := by
        rintro heq
        exact hc (List.cons.inj heq).1.symm
      obtain ⟨rfl, hr⟩ := Text.flatMap_delimits next stop htail
      exact ⟨rfl, hr⟩

end Joined

namespace Value

def opener : Value → Char
  | .string _ => '"'
  | .array _ => '['
  | .object _ => '\x7b'

theorem write_starts (value : Value) : ∃ text, value.write = value.opener :: text := by
  cases value <;> exact ⟨_, rfl⟩

theorem opener_eq {value value' : Value} {r r' : List Char}
    (h : value.write ++ r = value'.write ++ r') : value.opener = value'.opener := by
  obtain ⟨text, ht⟩ := value.write_starts
  obtain ⟨text', ht'⟩ := value'.write_starts
  rw [ht, ht'] at h
  exact (List.cons.inj h).1

theorem write_ne_bracket (value : Value) (r r' : List Char) : value.write ++ r ≠ ']' :: r' := by
  obtain ⟨text, ht⟩ := value.write_starts
  rw [ht]
  cases value <;> simp [opener]

/-- A member tells its name, and its value if the value can be told. -/
theorem writeMember_delimits {m m' : String × Value} {r r' : List Char}
    (h : ∀ value r r', m.2.write ++ r = value.write ++ r' → m.2 = value ∧ r = r')
    (heq : writeMember m ++ r = writeMember m' ++ r') : m = m' ∧ r = r' := by
  simp only [writeMember, member, List.append_assoc, List.cons_append] at heq
  obtain ⟨hname, htail⟩ := string_delimits _ _ _ _ heq
  obtain ⟨hvalue, hr⟩ := h _ _ _ (List.cons.inj htail).2
  exact ⟨Prod.ext (String.toList_injective hname) hvalue, hr⟩

theorem writeMember_ne_brace (m : String × Value) (r r' : List Char) :
    writeMember m ++ r ≠ '\x7d' :: r' :=
  fun heq => absurd (List.cons.inj heq).1 (by decide)

/-- The text of a value tells the value, whatever follows. -/
theorem write_delimits : Text.SelfDelimiting write := by
  intro value
  induction value using induct with
  | string text =>
    intro value' r r' heq
    cases value' with
    | string text' =>
      obtain ⟨rfl, hr⟩ := string_delimits _ _ _ _ heq
      exact ⟨rfl, hr⟩
    | array | object => exact absurd (opener_eq heq) (by simp [opener])
  | array values ih =>
    intro value' r r' heq
    cases value' with
    | array values' =>
      simp only [write, Json.array, writeAll_eq_map, List.cons_append, List.append_assoc,
        List.nil_append, List.cons.injEq, true_and] at heq
      obtain ⟨rfl, hr⟩ := joined_delimits (by decide) ih write_ne_bracket heq
      exact ⟨rfl, hr⟩
    | string | object => exact absurd (opener_eq heq) (by simp [opener])
  | object members ih =>
    intro value' r r' heq
    cases value' with
    | object members' =>
      simp only [write, Json.object, writeMembers_eq_map, List.cons_append, List.append_assoc,
        List.nil_append, List.cons.injEq, true_and] at heq
      have told (m : String × Value) (hm : m ∈ members) (m' : String × Value) (r r' : List Char) :
          writeMember m ++ r = writeMember m' ++ r' → m = m' ∧ r = r' :=
        writeMember_delimits (ih m hm)
      obtain ⟨rfl, hr⟩ := joined_delimits (by decide) told writeMember_ne_brace heq
      exact ⟨rfl, hr⟩
    | string | array => exact absurd (opener_eq heq) (by simp [opener])

end Value

end ShellLex.Json
