import Metamorphosis.Proofs.Document.Lines
import Metamorphosis.Source.Load

namespace Metamorphosis

section Characters

theorem isNameChar_of_isSpace {c : Char} (h : isSpace c = true) : isNameChar c = false := by
  simp only [isSpace, Bool.or_eq_true, beq_iff_eq] at h
  rcases h with rfl | rfl <;> decide

theorem isNameChar_of_isBlank {c : Char} (h : isBlank c = true) : isNameChar c = false := by
  simp only [isBlank, Bool.or_eq_true, beq_iff_eq] at h
  rcases h with ((h | rfl) | rfl) | rfl
  · exact isNameChar_of_isSpace h
  · decide
  · decide
  · decide

/-- A character that an element can begin with. -/
def isElementChar (c : Char) : Bool :=
  c == '@' || isNameChar c

theorem isElementChar_of_isBlank {c : Char} (h : isBlank c = true) : isElementChar c = false := by
  have hat : c ≠ '@' := by
    rintro rfl
    cases h
  simp [isElementChar, hat, isNameChar_of_isBlank h]

theorem isBlank_of_isSpace {c : Char} (h : isSpace c = true) : isBlank c = true := by
  simp [isBlank, h]

end Characters

section Words

theorem skipSpaces_cons {c : Char} (h : isSpace c = true) (s : List Char) :
    skipSpaces (c :: s) = skipSpaces s :=
  List.dropWhile_cons_of_pos h

theorem skipSpaces_of_head {s : List Char} (h : ∀ c ∈ s.head?, isSpace c = false) :
    skipSpaces s = s := by
  cases s with
  | nil => rfl
  | cons c s =>
    have hc := h c rfl
    exact List.dropWhile_cons_of_neg (by simp [hc])

end Words

section Names

theorem readName?_append {name : String} (hname : IsName name) {rest : List Char}
    (hrest : AfterName rest) : readName? (name.toList ++ rest) = some (name, rest) := by
  obtain ⟨htake, hdrop⟩ := span_append hname.2 hrest
  have hne : name.toList.isEmpty = false := by
    rw [List.isEmpty_eq_false_iff]
    exact hname.1
  rw [readName?, htake, hdrop, hne, String.ofList_toList]
  rfl

theorem readName_append {name : String} (hname : IsName name) {rest : List Char}
    (hrest : AfterName rest) : readName (name.toList ++ rest) = .ok (name, rest) := by
  rw [readName, readName?_append hname hrest]

theorem readName?_none {s : List Char} (h : AfterName s) : readName? s = none := by
  have hnone : ∀ c ∈ ([] : List Char), isNameChar c = true := by simp
  have htake : s.takeWhile isNameChar = [] := (span_append hnone h).1
  rw [readName?, htake]
  rfl

theorem afterName_cons {c : Char} (h : isNameChar c = false) (rest : List Char) :
    AfterName (c :: rest) := by
  intro d hd
  rwa [← Option.some.inj hd]

end Names

section Many

variable {α : Type} {item : OptReader α}

theorem readMany_of_none {s : List Char} (h : item s = .ok none) :
    readMany item s = .ok ([], s) := by
  rw [readMany, h]

/-- An item that takes some text is followed by more of them. -/
theorem readMany_of_some {s t : List Char} {a : α} (h : item s = .ok (some (a, t)))
    (hlt : t.length < s.length) :
    readMany item s = (readMany item t).map fun r => (a :: r.1, r.2) := by
  rw [readMany, h]
  simp only [hlt, if_true]
  cases readMany item t with
  | error f => rfl
  | ok r => rfl

/-- Items in writing are read off if each of them can be told from what may follow it. -/
theorem readMany_flatMap {P : α → Prop} {More : List Char → Prop} {write : α → List Char}
    (hread : ∀ a rest, P a → More rest → item (write a ++ rest) = .ok (some (a, rest)))
    (hmore : ∀ a rest, P a → More (write a ++ rest)) (hne : ∀ a, P a → write a ≠ [])
    {xs : List α} (hxs : ∀ x ∈ xs, P x) {rest : List Char} (hrest : More rest)
    (hend : item rest = .ok none) : readMany item (xs.flatMap write ++ rest) = .ok (xs, rest) := by
  induction xs with
  | nil => exact readMany_of_none hend
  | cons x xs ih =>
    obtain ⟨hx, hxs⟩ := List.forall_mem_cons.mp hxs
    have hfollow : More (xs.flatMap write ++ rest) := by
      cases xs with
      | nil => exact hrest
      | cons y ys =>
        rw [List.flatMap_cons, List.append_assoc]
        exact hmore y _ (hxs y List.mem_cons_self)
    have hlt : (xs.flatMap write ++ rest).length < (write x ++ (xs.flatMap write ++ rest)).length := by
      have hpos := List.length_pos_iff.mpr (hne x hx)
      simp only [List.length_append]
      omega
    rw [List.flatMap_cons, List.append_assoc, readMany_of_some (hread x _ hx hfollow) hlt, ih hxs]
    rfl

end Many

section Lists

variable {α : Type}

/-- A first item with more of them after it, or a failure if there is no first one. -/
def thenMany (more : OptReader α) (missing : Failure) (first : Option (α × List Char)) :
    Except Failure (List α × List Char) :=
  (first.map fun x => (readMany more x.2).map fun r => (x.1 :: r.1, r.2)).getD (.error missing)

theorem readSome_eq (item : OptReader α) (missing : List Char → Failure) (s : List Char) :
    readSome item missing s = item s >>= thenMany item (missing s) := by
  unfold readSome
  cases item s with
  | error f => rfl
  | ok first =>
    cases first with
    | none => rfl
    | some x =>
      simp only [bind, Except.bind, thenMany, Option.map_some, Option.getD_some]
      cases readMany item x.2 <;> rfl

theorem readSeparated_eq (sign : String) (item : OptReader α) (s : List Char) :
    readSeparated sign item s =
      item s >>= thenMany (readBehind sign item) ⟨s, [.glyphName]⟩ := by
  unfold readSeparated
  cases item s with
  | error f => rfl
  | ok first =>
    cases first with
    | none => rfl
    | some x =>
      simp only [bind, Except.bind, thenMany, Option.map_some, Option.getD_some]
      cases readMany (readBehind sign item) x.2 <;> rfl

theorem readBehind_of_some {sign : String} {item : OptReader α} {s t : List Char}
    (h : afterWord? sign.toList (skipSpaces s) = some t) :
    readBehind sign item s = item (skipSpaces t) := by
  rw [readBehind, h]

theorem readBehind_of_none {sign : String} {item : OptReader α} {s : List Char}
    (h : afterWord? sign.toList (skipSpaces s) = none) : readBehind sign item s = .ok none := by
  rw [readBehind, h]
  rfl

end Lists

section Blanks

theorem skipBlanks_eq (s : List Char) :
    skipBlanks s =
      ((afterComment? (s.dropWhile isBlank)).map skipBlanks).getD (s.dropWhile isBlank) := by
  rw [skipBlanks]
  split
  next t h => simp only [h, Option.map_some, Option.getD_some]
  next h => simp only [h, Option.map_none, Option.getD_none]

theorem skipBlanks_cons {c : Char} (h : isBlank c = true) (s : List Char) :
    skipBlanks (c :: s) = skipBlanks s := by
  rw [skipBlanks_eq, skipBlanks_eq s, List.dropWhile_cons_of_pos h]

/-- Text that begins with neither a blank nor a comment is left as it is. -/
theorem skipBlanks_of_head {c : Char} (hblank : isBlank c = false) (hcomment : c ≠ '#')
    (s : List Char) : skipBlanks (c :: s) = c :: s := by
  have hdrop : (c :: s).dropWhile isBlank = c :: s := List.dropWhile_cons_of_neg (by simp [hblank])
  have hnone : afterComment? (c :: s) = none := by
    unfold afterComment?
    split
    next h => exact absurd (List.cons.inj h).1 hcomment
    next => rfl
  rw [skipBlanks_eq, hdrop, hnone, Option.map_none, Option.getD_none]

end Blanks

section Rules

variable {α : Type} {rule : Reader α} {s : List Char}

theorem readBlockRule?_of_closed (h : (skipBlanks s).head? = some '\x7d') :
    readBlockRule? rule s = .ok none := by
  obtain ⟨t, ht⟩ := List.head?_eq_some_iff.mp h
  rw [readBlockRule?, ht]
  rfl

theorem readBlockRule?_of_open (h : (skipBlanks s).head? ≠ some '\x7d') :
    readBlockRule? rule s = readToEnd rule (skipBlanks s) >>= fun r => .ok (some r) := by
  unfold readBlockRule?
  split
  next t ht =>
    rw [ht] at h
    exact absurd rfl h
  next => rfl

end Rules

section Counted

/-- The line on which the rest of a text begins, when the whole text has `lines` lines. -/
def lineOf (lines : Nat) (rest : List Char) : Nat :=
  lines - rest.count '\n'

/-- A rule with its line in a text of `lines` lines. -/
def inText {α : Type} (rule : Nat → Reader α) (lines : Nat) : Reader α := fun s =>
  rule (lineOf lines s) s

/-- The rules of a block between its braces. -/
def readBlock {α : Type} (rule : Reader α) : Reader (List α) := fun s => do
  let (_, t) ← readSymbol "\x7b" s
  let (rules, u) ← readMany (readBlockRule? rule) t
  return (rules, (skipBlanks u).drop 1)

/-- What follows the name of a directive in a text of `lines` lines. -/
def Directive.read (lines : Nat) : Directive → Reader RuleFile
  | .glyphClass => readAs (readToEnd readDefinition) fun c => { classes := [c] }
  | .contextual => readAs (readBlock (inText readContextual lines)) fun rules =>
    { contextual := rules }
  | .reorder => readAs (readBlock (inText readReorder lines)) fun rules => { reorder := rules }
  | .simple => readAs (readBlock (inText readSimple lines)) fun rules => { simple := rules }
  | .ligature => readAs (readBlock (inText readLigature lines)) fun rules => { ligature := rules }
  | .oneToMany => readAs (readBlock (inText readOneToMany lines)) fun rules =>
    { oneToMany := rules }

def readDirective (lines : Nat) : Reader RuleFile
  | '@' :: t => do
    let (directive, u) ← readKeyword directives .directiveName t
    directive.read lines u
  | s => throw ⟨s, [.directive]⟩

theorem readDirective_of_other {lines : Nat} {s : List Char} (h : s.head? ≠ some '@') :
    readDirective lines s = .error ⟨s, [.directive]⟩ := by
  unfold readDirective
  split
  next => exact absurd rfl h
  next => rfl

def readDirective? (lines : Nat) : OptReader RuleFile := fun s =>
  match skipBlanks s with
  | [] => return none
  | t => do
    let r ← readDirective lines t
    return some r

/-- The directives of a text of `lines` lines to its end, as one rule file. -/
def readParts (lines : Nat) (s : List Char) : Except Failure RuleFile := do
  let (parts, _) ← readMany (readDirective? lines) s
  return parts.foldl RuleFile.append {}

end Counted

end Metamorphosis
