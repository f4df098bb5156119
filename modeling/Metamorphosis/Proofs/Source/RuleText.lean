import Metamorphosis.Proofs.Source.Reader
import Metamorphosis.Source.Printer

namespace Metamorphosis

variable {rest : List Char}

section Elements

variable {e : Element}

/-- The name of the element is one that can be read. -/
def Element.Named : Element → Prop
  | .glyph name => IsName name
  | .classRef name => IsName name

instance : DecidablePred Element.Named := fun e =>
  match e with
  | .glyph name => inferInstanceAs (Decidable (IsName name))
  | .classRef name => inferInstanceAs (Decidable (IsName name))

theorem IsName.head {name : String} (h : IsName name) :
    ∃ c s, name.toList = c :: s ∧ isNameChar c = true := by
  obtain ⟨c, s, hs⟩ := List.exists_cons_of_ne_nil h.1
  exact ⟨c, s, hs, h.2 c (by rw [hs]; exact List.mem_cons_self)⟩

theorem Element.text_head (h : e.Named) :
    ∃ c s, e.text.toList = c :: s ∧ isElementChar c = true := by
  cases e with
  | glyph name =>
    obtain ⟨c, s, hs, hc⟩ := IsName.head h
    exact ⟨c, s, hs, by simp [isElementChar, hc]⟩
  | classRef name => exact ⟨'@', name.toList, String.toList_append, rfl⟩

theorem skipSpaces_text (h : e.Named) (rest : List Char) :
    skipSpaces (e.text.toList ++ rest) = e.text.toList ++ rest := by
  obtain ⟨c, s, hs, hc⟩ := Element.text_head h
  apply skipSpaces_of_head
  intro d hd
  rw [hs] at hd
  rw [← Option.some.inj hd, ← Bool.not_eq_true]
  intro hspace
  rw [isElementChar_of_isBlank (isBlank_of_isSpace hspace)] at hc
  cases hc

theorem readElement?_text (h : e.Named) (hrest : AfterName rest) :
    readElement? (e.text.toList ++ rest) = .ok (some (e, rest)) := by
  cases e with
  | classRef name =>
    have hread : readName (name.toList ++ rest) = .ok (name, rest) := readName_append h hrest
    have htext : (Element.classRef name).text.toList ++ rest = '@' :: (name.toList ++ rest) := by
      simp [Element.text]
    rw [htext, readElement?, hread]
    rfl
  | glyph name =>
    have hread : readName? ((Element.glyph name).text.toList ++ rest) = some (name, rest) :=
      readName?_append h hrest
    unfold readElement?
    split
    next t ht =>
      -- a name does not begin with the sign of a class
      obtain ⟨c, s, hs, hc⟩ := IsName.head h
      have hfirst : c :: (s ++ rest) = '@' :: t := by
        rw [← ht, ← List.cons_append, ← hs]
        rfl
      rw [(List.cons.inj hfirst).1] at hc
      cases hc
    next =>
      rw [hread]
      rfl

theorem readElement_text (h : e.Named) (hrest : AfterName rest) :
    readElement (e.text.toList ++ rest) = .ok (e, rest) := by
  rw [readElement, readElement?_text h hrest]
  rfl

end Elements

section Patterns

/-- A text at which a list of elements ends. -/
def AfterPattern (rest : List Char) : Prop :=
  ∀ c ∈ (skipSpaces rest).head?, isElementChar c = false

theorem afterPattern_cons {c : Char} (hspace : isSpace c = false) (hc : isElementChar c = false)
    (rest : List Char) : AfterPattern (c :: rest) := by
  intro d hd
  rw [skipSpaces_of_head (by simpa using hspace)] at hd
  rwa [← Option.some.inj hd]

theorem AfterPattern.space (h : AfterPattern rest) : AfterPattern (' ' :: rest) := by
  intro c hc
  rw [skipSpaces_cons rfl] at hc
  exact h c hc

theorem isNameChar_of_not_isElementChar {c : Char} (h : isElementChar c = false) :
    isNameChar c = false :=
  (Bool.or_eq_false_iff.mp h).2

theorem AfterPattern.afterName (h : AfterPattern rest) : AfterName rest := by
  intro c hc
  cases hspace : isSpace c with
  | true => exact isNameChar_of_isSpace hspace
  | false =>
    have hskip : skipSpaces rest = rest := by
      apply skipSpaces_of_head
      intro d hd
      rwa [← Option.some.inj (hc.symm.trans hd)]
    exact isNameChar_of_not_isElementChar (h c (by rwa [hskip]))

theorem readElement?_none (h : AfterPattern rest) : readElement? (skipSpaces rest) = .ok none := by
  unfold readElement?
  split
  next t ht =>
    have hat := h '@' (by rw [ht]; rfl)
    cases hat
  next =>
    have hname : AfterName (skipSpaces rest) :=
      fun c hc => isNameChar_of_not_isElementChar (h c hc)
    rw [readName?_none hname]
    rfl

/-- Things that each stand behind a mark are read one after the other. -/
theorem readMany_marked {α : Type} {item : OptReader α} {text : α → String} {P : α → Prop}
    {mark : String} (hmark : IsMark mark)
    (hread : ∀ a rest, P a → AfterName rest →
      item (mark.toList ++ ((text a).toList ++ rest)) = .ok (some (a, rest)))
    {as : List α} (has : ∀ a ∈ as, P a) (hrest : AfterName rest) (hend : item rest = .ok none) :
    AfterName (as.flatMap (fun a => mark.toList ++ (text a).toList) ++ rest) ∧
      readMany item (as.flatMap (fun a => mark.toList ++ (text a).toList) ++ rest) =
        .ok (as, rest) := by
  have hmore : ∀ a rest, P a → AfterName (mark.toList ++ (text a).toList ++ rest) := by
    intro a rest _
    rw [List.append_assoc]
    exact hmark.afterName _
  constructor
  · cases as with
    | nil => exact hrest
    | cons a as =>
      rw [List.flatMap_cons, List.append_assoc]
      exact hmore a _ (has a List.mem_cons_self)
  · refine readMany_flatMap ?_ hmore ?_ has hrest hend
    · intro a rest ha hrest
      rw [List.append_assoc]
      exact hread a rest ha hrest
    · intro a _ h
      exact hmark.1 (List.append_eq_nil_iff.mp h).1

/-- Spaced things are read by a reader that skips spaces before each of them. -/
theorem readSome_spaced {α : Type} {item : OptReader α} {missing : List Char → Failure}
    {text : α → String} {P : α → Prop}
    (hread : ∀ a rest, P a → AfterName rest →
      item ((text a).toList ++ rest) = .ok (some (a, rest)))
    (hskip : ∀ s, item (' ' :: s) = item s) {as : List α} (hne : as ≠ []) (has : ∀ a ∈ as, P a)
    (hrest : AfterName rest) (hend : item rest = .ok none) :
    readSome item missing ((spaced (as.map text)).toList ++ rest) = .ok (as, rest) := by
  obtain ⟨a, as, rfl⟩ := List.exists_cons_of_ne_nil hne
  obtain ⟨ha, has⟩ := List.forall_mem_cons.mp has
  have hmarked : ∀ a rest, P a → AfterName rest →
      item (" ".toList ++ ((text a).toList ++ rest)) = .ok (some (a, rest)) := by
    intro a rest ha hrest
    exact (hskip _).trans (hread a rest ha hrest)
  obtain ⟨hfollow, hmany⟩ := readMany_marked (by decide) hmarked has hrest hend
  rw [List.map_cons, spaced, toList_intercalate_cons, List.flatMap_map, List.append_assoc,
    readSome_eq, hread a _ ha hfollow]
  simp only [bind, Except.bind, thenMany, Option.map_some, Option.getD_some, hmany]
  rfl

theorem readPattern_spaced {es : List Element} (hne : es ≠ []) (hes : ∀ e ∈ es, e.Named)
    (hrest : AfterPattern rest) :
    readPattern ((spaced (es.map Element.text)).toList ++ rest) = .ok (es, rest) := by
  have hread : ∀ (e : Element) (rest : List Char), e.Named → AfterName rest →
      readElement? (skipSpaces (e.text.toList ++ rest)) = .ok (some (e, rest)) := by
    intro e rest he hrest
    rw [skipSpaces_text he, readElement?_text he hrest]
  unfold readPattern
  rw [readSome_spaced hread (fun s => rfl) hne hes hrest.afterName (readElement?_none hrest)]
  rfl

theorem readPattern_space (s : List Char) : readPattern (' ' :: s) = readPattern s := by
  have hsome : readSome (fun s => readElement? (skipSpaces s)) noElement (' ' :: s) =
      readSome (fun s => readElement? (skipSpaces s)) noElement s := rfl
  unfold readPattern
  rw [hsome]

end Patterns

section Contexts

/-- The first side of a `between` context is read up to the word after it. -/
theorem readFirstSide_spaced {es : List Element} (hne : es ≠ []) (hes : ∀ e ∈ es, e.Named)
    (hword : .glyph betweenWord ∉ es) (hrest : AfterName rest) :
    readFirstSide ((spaced (es.map Element.text)).toList ++ ' ' :: (betweenWord.toList ++ rest)) =
      .ok (es, ' ' :: (betweenWord.toList ++ rest)) := by
  have hread : ∀ (e : Element) (rest : List Char), (e.Named ∧ e ≠ .glyph betweenWord) →
      AfterName rest → readFirstSideElement? (e.text.toList ++ rest) = .ok (some (e, rest)) := by
    intro e rest he hrest
    unfold readFirstSideElement?
    rw [skipSpaces_text he.1, readElement?_text he.1 hrest]
    cases e with
    | classRef name => rfl
    | glyph name =>
      have hn : (name == betweenWord) = false :=
        beq_false_of_ne fun h => he.2 (congrArg Element.glyph h)
      simp only [bind, Except.bind, hn]
      rfl
  have hend : readFirstSideElement? (' ' :: (betweenWord.toList ++ rest)) = .ok none := by
    have hnamed : (Element.glyph betweenWord).Named := by decide
    have hglyph : readElement? (betweenWord.toList ++ rest) =
        .ok (some (.glyph betweenWord, rest)) := readElement?_text hnamed hrest
    unfold readFirstSideElement?
    rw [skipSpaces_cons rfl, skipSpaces_of_head (fun c hc => by cases hc; rfl), hglyph]
    rfl
  have hall : ∀ e ∈ es, e.Named ∧ e ≠ .glyph betweenWord :=
    fun e he => ⟨hes e he, fun h => hword (h ▸ he)⟩
  unfold readFirstSide
  rw [readSome_spaced hread (fun s => rfl) hne hall (afterName_cons rfl _) hend]
  rfl

/-- The sides of the context are there, and none of them is cut short when it is read. -/
def Context.Printable : Context Element → Prop
  | .after pattern => pattern ≠ [] ∧ ∀ e ∈ pattern, e.Named
  | .before pattern => pattern ≠ [] ∧ ∀ e ∈ pattern, e.Named
  | .when pattern => pattern ≠ [] ∧ ∀ e ∈ pattern, e.Named
  | .between first second =>
    (first ≠ [] ∧ ∀ e ∈ first, e.Named) ∧ (second ≠ [] ∧ ∀ e ∈ second, e.Named) ∧
      .glyph betweenWord ∉ first

instance : DecidablePred Context.Printable := fun c =>
  match c with
  | .after pattern => inferInstanceAs (Decidable (pattern ≠ [] ∧ ∀ e ∈ pattern, e.Named))
  | .before pattern => inferInstanceAs (Decidable (pattern ≠ [] ∧ ∀ e ∈ pattern, e.Named))
  | .when pattern => inferInstanceAs (Decidable (pattern ≠ [] ∧ ∀ e ∈ pattern, e.Named))
  | .between first second =>
    inferInstanceAs (Decidable ((first ≠ [] ∧ ∀ e ∈ first, e.Named) ∧
      (second ≠ [] ∧ ∀ e ∈ second, e.Named) ∧ .glyph betweenWord ∉ first))

theorem readContext_text {c : Context Element} (h : c.Printable) (hrest : AfterPattern rest) :
    readContext ((c.text Element.text).toList ++ rest) = .ok (c, rest) := by
  have hpattern : ∀ {es : List Element}, (es ≠ [] ∧ ∀ e ∈ es, e.Named) →
      readPattern (' ' :: ((spaced (es.map Element.text)).toList ++ rest)) = .ok (es, rest) := by
    intro es hes
    rw [readPattern_space, readPattern_spaced hes.1 hes.2 hrest]
  cases c with
  | after pattern =>
    have hkeyword : ∀ s, readKeyword contextKeywords .contextKeyword ("after ".toList ++ s) =
        .ok (.after, ' ' :: s) := fun s => rfl
    rw [Context.text, String.toList_append, List.append_assoc, readContext, hkeyword]
    simp only [bind, Except.bind, ContextKeyword.read, readAs, hpattern h]
    rfl
  | before pattern =>
    have hkeyword : ∀ s, readKeyword contextKeywords .contextKeyword ("before ".toList ++ s) =
        .ok (.before, ' ' :: s) := fun s => rfl
    rw [Context.text, String.toList_append, List.append_assoc, readContext, hkeyword]
    simp only [bind, Except.bind, ContextKeyword.read, readAs, hpattern h]
    rfl
  | when pattern =>
    have hkeyword : ∀ s, readKeyword contextKeywords .contextKeyword ("when ".toList ++ s) =
        .ok (.when, ' ' :: s) := fun s => rfl
    rw [Context.text, String.toList_append, List.append_assoc, readContext, hkeyword]
    simp only [bind, Except.bind, ContextKeyword.read, readAs, hpattern h]
    rfl
  | between first second =>
    obtain ⟨hfirst, hsecond, hword⟩ := h
    have hkeyword : ∀ s, readKeyword contextKeywords .contextKeyword ("between ".toList ++ s) =
        .ok (.between, ' ' :: s) := fun s => rfl
    have hspace : ∀ s, readFirstSide (' ' :: s) = readFirstSide s := fun s => rfl
    have hafter : AfterName (' ' :: ((spaced (second.map Element.text)).toList ++ rest)) :=
      afterName_cons rfl _
    have hfirst := readFirstSide_spaced hfirst.1 hfirst.2 hword hafter
    have hand : ∀ s, readSymbol betweenWord (' ' :: (betweenWord.toList ++ s)) = .ok ((), s) :=
      fun s => rfl
    have htext : (Context.text Element.text (.between first second)).toList ++ rest =
        "between ".toList ++ ((spaced (first.map Element.text)).toList ++
          ' ' :: (betweenWord.toList ++ ' ' :: ((spaced (second.map Element.text)).toList ++ rest))) := by
      simp [Context.text, betweenWord]
    rw [htext, readContext, hkeyword]
    simp only [ContextKeyword.read, hspace, hfirst, bind, Except.bind, hand, hpattern hsecond]
    rfl

end Contexts

section Separated

/-- Things with a sign between them and spaces around the sign, after a space. -/
theorem readSeparated_joined {α : Type} {item : OptReader α} {text : α → String} {P : α → Prop}
    {sign mark : String} (hmark : IsMark mark)
    (hsign : ∀ s, afterWord? sign.toList (skipSpaces (mark.toList ++ s)) = some (' ' :: s))
    (hskip : ∀ a rest, P a → skipSpaces ((text a).toList ++ rest) = (text a).toList ++ rest)
    (hread : ∀ a rest, P a → AfterName rest →
      item ((text a).toList ++ rest) = .ok (some (a, rest)))
    {as : List α} (hne : as ≠ []) (has : ∀ a ∈ as, P a) (hrest : AfterName rest)
    (hend : afterWord? sign.toList (skipSpaces rest) = none) :
    readSeparated sign item (skipSpaces (' ' :: ((mark.intercalate (as.map text)).toList ++ rest))) =
      .ok (as, rest) := by
  obtain ⟨a, as, rfl⟩ := List.exists_cons_of_ne_nil hne
  obtain ⟨ha, has⟩ := List.forall_mem_cons.mp has
  have hmarked : ∀ a rest, P a → AfterName rest →
      readBehind sign item (mark.toList ++ ((text a).toList ++ rest)) = .ok (some (a, rest)) := by
    intro a rest ha hrest
    rw [readBehind_of_some (hsign _), skipSpaces_cons rfl, hskip a rest ha, hread a rest ha hrest]
  obtain ⟨hfollow, hmany⟩ := readMany_marked hmark hmarked has hrest (readBehind_of_none hend)
  rw [skipSpaces_cons rfl, List.map_cons, toList_intercalate_cons, List.flatMap_map,
    List.append_assoc, hskip a _ ha, readSeparated_eq, hread a _ ha hfollow]
  simp only [bind, Except.bind, thenMany, Option.map_some, Option.getD_some, hmany]
  rfl

def Pair.Named (p : Pair) : Prop :=
  p.target.Named ∧ p.replacement.Named

instance : DecidablePred Pair.Named := fun p =>
  inferInstanceAs (Decidable (p.target.Named ∧ p.replacement.Named))

variable {p : Pair}

theorem toList_pair (p : Pair) (rest : List Char) :
    p.text.toList ++ rest =
      p.target.text.toList ++ (" => ".toList ++ (p.replacement.text.toList ++ rest)) := by
  simp [Pair.text]

theorem skipSpaces_pair (h : p.Named) (rest : List Char) :
    skipSpaces (p.text.toList ++ rest) = p.text.toList ++ rest := by
  rw [toList_pair, skipSpaces_text h.1]

/-- A pair is read back only if it has no wildcard, which its text would not tell. -/
theorem readPair?_text (h : p.Named) (hplain : p.wildcard = none) (hrest : AfterName rest) :
    readPair? (p.text.toList ++ rest) = .ok (some (p, rest)) := by
  obtain ⟨target, replacement, wildcard⟩ := p
  obtain rfl : wildcard = none := hplain
  have htarget : readElement? ((Pair.text ⟨target, replacement, none⟩).toList ++ rest) =
      .ok (some (target, " => ".toList ++ (replacement.text.toList ++ rest))) := by
    rw [toList_pair]
    exact readElement?_text h.1 (afterName_cons rfl _)
  have harrow : ∀ s, readSymbol "=>" (" => ".toList ++ s) = .ok ((), ' ' :: s) := fun s => rfl
  have hreplacement : readElement (skipSpaces (' ' :: (replacement.text.toList ++ rest))) =
      .ok (replacement, rest) := by
    rw [skipSpaces_cons rfl, skipSpaces_text h.2, readElement_text h.2 hrest]
  unfold readPair?
  rw [htarget]
  simp only [bind, Except.bind, harrow, hreplacement, labelled]
  rfl

end Separated

section Rules

/-- What a rule is followed by on its line. -/
theorem afterPattern_break (rest : List Char) : AfterPattern ('\n' :: rest) :=
  afterPattern_cons rfl rfl rest

def ContextualRule.Printable (r : ContextualRule) : Prop :=
  r.context.Printable ∧ r.pairs ≠ [] ∧ ∀ p ∈ r.pairs, p.Named

instance : DecidablePred ContextualRule.Printable := fun r =>
  inferInstanceAs (Decidable (r.context.Printable ∧ r.pairs ≠ [] ∧ ∀ p ∈ r.pairs, p.Named))

/-- No substitution of the rule has a wildcard. -/
def ContextualRule.Plain (r : ContextualRule) : Prop :=
  ∀ p ∈ r.pairs, p.wildcard = none

instance : DecidablePred ContextualRule.Plain := fun r =>
  inferInstanceAs (Decidable (∀ p ∈ r.pairs, p.wildcard = none))

def ReorderRule.Printable (r : ReorderRule) : Prop :=
  (r.before ≠ [] ∧ ∀ e ∈ r.before, e.Named) ∧ r.after ≠ [] ∧ ∀ e ∈ r.after, e.Named

instance : DecidablePred ReorderRule.Printable := fun r =>
  inferInstanceAs (Decidable ((r.before ≠ [] ∧ ∀ e ∈ r.before, e.Named) ∧
    r.after ≠ [] ∧ ∀ e ∈ r.after, e.Named))

def SimpleRule.Printable (r : SimpleRule) : Prop :=
  r.target.Named ∧ r.replacement.Named

instance : DecidablePred SimpleRule.Printable := fun r =>
  inferInstanceAs (Decidable (r.target.Named ∧ r.replacement.Named))

def LigatureRule.Printable (r : LigatureRule) : Prop :=
  r.ligature.Named ∧ r.components ≠ [] ∧ ∀ e ∈ r.components, e.Named

instance : DecidablePred LigatureRule.Printable := fun r =>
  inferInstanceAs (Decidable (r.ligature.Named ∧ r.components ≠ [] ∧ ∀ e ∈ r.components, e.Named))

def OneToManyRule.Printable (r : OneToManyRule) : Prop :=
  r.source.Named ∧ r.targets ≠ [] ∧ ∀ e ∈ r.targets, e.Named

instance : DecidablePred OneToManyRule.Printable := fun r =>
  inferInstanceAs (Decidable (r.source.Named ∧ r.targets ≠ [] ∧ ∀ e ∈ r.targets, e.Named))

theorem readContextual_text {r : ContextualRule} (h : r.Printable) (hplain : r.Plain) (line : Nat)
    (rest : List Char) :
    readContextual line (r.text.toList ++ '\n' :: rest) =
      .ok ({ r with line }, '\n' :: rest) := by
  obtain ⟨hcontext, hne, hpairs⟩ := h
  have htext : r.text.toList ++ '\n' :: rest =
      (r.context.text Element.text).toList ++
        (": ".toList ++ ((", ".intercalate (r.pairs.map Pair.text)).toList ++ '\n' :: rest)) := by
    simp [ContextualRule.text]
  have hfollow : ∀ s, AfterPattern (": ".toList ++ s) :=
    fun s => afterPattern_cons rfl rfl (' ' :: s)
  have hcolon : ∀ s, readSymbol ":" (": ".toList ++ s) = .ok ((), ' ' :: s) := fun s => rfl
  have hseparated : readSeparated "," readPair? (skipSpaces
      (' ' :: ((", ".intercalate (r.pairs.map Pair.text)).toList ++ '\n' :: rest))) =
        .ok (r.pairs, '\n' :: rest) :=
    readSeparated_joined (by decide) (fun s => rfl)
      (fun p rest (hp : p.Named ∧ p.wildcard = none) => skipSpaces_pair hp.1 rest)
      (fun p rest hp => readPair?_text hp.1 hp.2) hne (fun p hp => ⟨hpairs p hp, hplain p hp⟩)
      (afterName_cons rfl rest) rfl
  unfold readContextual readAround
  simp only [htext, readContext_text hcontext (hfollow _), bind, Except.bind, hcolon, hseparated]
  rfl

theorem readReorder_text {r : ReorderRule} (h : r.Printable) (line : Nat) (rest : List Char) :
    readReorder line (r.text.toList ++ '\n' :: rest) =
      .ok ({ r with line }, '\n' :: rest) := by
  obtain ⟨hbefore, hafter⟩ := h
  have htext : r.text.toList ++ '\n' :: rest =
      (spaced (r.before.map Element.text)).toList ++
        (" => ".toList ++ ((spaced (r.after.map Element.text)).toList ++ '\n' :: rest)) := by
    simp [ReorderRule.text]
  have harrow : ∀ s, readArrow (" => ".toList ++ s) = .ok ((), ' ' :: s) := fun s => rfl
  have hfollow : ∀ s, AfterPattern (" => ".toList ++ s) :=
    fun s => (afterPattern_cons rfl rfl ('>' :: ' ' :: s)).space
  unfold readReorder readAround
  simp only [htext, readPattern_spaced hbefore.1 hbefore.2 (hfollow _), bind, Except.bind, harrow,
    readPattern_space, readPattern_spaced hafter.1 hafter.2 (afterPattern_break rest)]
  rfl

theorem readSimple_text {r : SimpleRule} (h : r.Printable) (line : Nat) (rest : List Char) :
    readSimple line (r.text.toList ++ '\n' :: rest) =
      .ok ({ r with line }, '\n' :: rest) := by
  have htext : r.text.toList ++ '\n' :: rest =
      r.target.text.toList ++ (" -> ".toList ++ (r.replacement.text.toList ++ '\n' :: rest)) := by
    simp [SimpleRule.text]
  have harrow : ∀ s, readSymbol "->" (" -> ".toList ++ s) = .ok ((), ' ' :: s) := fun s => rfl
  have hafter : ∀ s, AfterName (" -> ".toList ++ s) := fun s => afterName_cons rfl _
  unfold readSimple readAround
  simp only [htext, readElement_text h.1 (hafter _), bind, Except.bind, harrow,
    skipSpaces_cons (show isSpace ' ' = true from rfl), skipSpaces_text h.2,
    readElement_text h.2 (afterName_cons (show isNameChar '\n' = false from rfl) rest)]
  rfl

theorem readLigature_text {r : LigatureRule} (h : r.Printable) (line : Nat) (rest : List Char) :
    readLigature line (r.text.toList ++ '\n' :: rest) =
      .ok ({ r with line }, '\n' :: rest) := by
  obtain ⟨hligature, hne, hcomponents⟩ := h
  have htext : r.text.toList ++ '\n' :: rest =
      r.ligature.text.toList ++
        (" := ".toList ++ ((" + ".intercalate (r.components.map Element.text)).toList ++ '\n' :: rest)) := by
    simp [LigatureRule.text]
  have hsign : ∀ s, readSymbol ":=" (" := ".toList ++ s) = .ok ((), ' ' :: s) := fun s => rfl
  have hafter : ∀ s, AfterName (" := ".toList ++ s) := fun s => afterName_cons rfl _
  have hseparated : readSeparated "+" readElement? (skipSpaces
      (' ' :: ((" + ".intercalate (r.components.map Element.text)).toList ++ '\n' :: rest))) =
        .ok (r.components, '\n' :: rest) :=
    readSeparated_joined (by decide) (fun s => rfl) (fun e rest he => skipSpaces_text he rest)
      (fun e rest he => readElement?_text he) hne hcomponents (afterName_cons rfl rest) rfl
  unfold readLigature readAround
  simp only [htext, readElement_text hligature (hafter _), bind, Except.bind, hsign,
    hseparated]
  rfl

theorem readOneToMany_text {r : OneToManyRule} (h : r.Printable) (line : Nat) (rest : List Char) :
    readOneToMany line (r.text.toList ++ '\n' :: rest) =
      .ok ({ r with line }, '\n' :: rest) := by
  obtain ⟨hsource, hne, htargets⟩ := h
  have htext : r.text.toList ++ '\n' :: rest =
      r.source.text.toList ++
        (" > ".toList ++ ((spaced (r.targets.map Element.text)).toList ++ '\n' :: rest)) := by
    simp [OneToManyRule.text]
  have hsign : ∀ s, readSymbol ">" (" > ".toList ++ s) = .ok ((), ' ' :: s) := fun s => rfl
  have hafter : ∀ s, AfterName (" > ".toList ++ s) := fun s => afterName_cons rfl _
  unfold readOneToMany readAround
  simp only [htext, readElement_text hsource (hafter _), bind, Except.bind, hsign,
    readPattern_space, readPattern_spaced hne htargets (afterPattern_break rest)]
  rfl

end Rules

end Metamorphosis
