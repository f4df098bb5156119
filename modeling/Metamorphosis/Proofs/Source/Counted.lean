import Metamorphosis.Proofs.Source.LineCounter
import Metamorphosis.Proofs.Source.Remainder

namespace Metamorphosis

section Agreement

variable {α β γ : Type} {text : List Char}

/-- Both fail alike, or both read the same up to the same place, and the counter that is handed on
counts the lines of the text. -/
inductive Agree (text : List Char) : Except Failure ((α × LineCounter) × List Char) →
    Except Failure (α × List Char) → Prop
  | error (f : Failure) : Agree text (.error f) (.error f)
  | ok (a : α) {c : LineCounter} {s : List Char} (hc : c.Counts text) (hs : s <:+ text) :
    Agree text (.ok ((a, c), s)) (.ok (a, s))

/-- The same, for readers that may find nothing. -/
inductive Agree? (text : List Char) : Except Failure (Option ((α × LineCounter) × List Char)) →
    Except Failure (Option (α × List Char)) → Prop
  | error (f : Failure) : Agree? text (.error f) (.error f)
  | none : Agree? text (.ok none) (.ok none)
  | some (a : α) {c : LineCounter} {s : List Char} (hc : c.Counts text) (hs : s <:+ text) :
    Agree? text (.ok (some ((a, c), s))) (.ok (some (a, s)))

/-- A reader with a counter reads in the text what a reader without one reads. -/
def Threads (text : List Char) (read : LineReader α) (counted : Reader α) : Prop :=
  ∀ c s, c.Counts text → s <:+ text → Agree text (read c s) (counted s)

def Threads? (text : List Char) (read : OptLineReader α) (counted : OptReader α) : Prop :=
  ∀ c s, c.Counts text → s <:+ text → Agree? text (read c s) (counted s)

theorem Agree.bind {r : Except Failure ((α × LineCounter) × List Char)}
    {r' : Except Failure (α × List Char)} (h : Agree text r r')
    {k : (α × LineCounter) × List Char → Except Failure ((β × LineCounter) × List Char)}
    {k' : α × List Char → Except Failure (β × List Char)}
    (hk : ∀ a c s, c.Counts text → s <:+ text → Agree text (k ((a, c), s)) (k' (a, s))) :
    Agree text (r >>= k) (r' >>= k') := by
  cases h with
  | error f => exact .error f
  | ok a hc hs => exact hk a _ _ hc hs

theorem agree_bind {P : γ → Prop} {r : Except Failure γ} (hr : Yields P r)
    {k : γ → Except Failure ((β × LineCounter) × List Char)}
    {k' : γ → Except Failure (β × List Char)} (hk : ∀ x, P x → Agree text (k x) (k' x)) :
    Agree text (r >>= k) (r >>= k') := by
  cases r with
  | error f => exact .error f
  | ok x => exact hk x (hr x rfl)

theorem Agree.toOption {r : Except Failure ((α × LineCounter) × List Char)}
    {r' : Except Failure (α × List Char)} (h : Agree text r r') :
    Agree? text (r >>= fun x => .ok (some x)) (r' >>= fun x => .ok (some x)) := by
  cases h with
  | error f => exact .error f
  | ok a hc hs => exact .some a hc hs

theorem Agree.exists_counter {r : Except Failure ((α × LineCounter) × List Char)} {a : α}
    {s : List Char} (h : Agree text r (.ok (a, s))) : ∃ c, r = .ok ((a, c), s) := by
  cases h with
  | ok a hc hs => exact ⟨_, rfl⟩

end Agreement

section Readers

variable {α β : Type} {text : List Char}

theorem lineOf_eq {rest : List Char} (h : rest <:+ text) :
    lineOf (text.count '\n' + 1) rest = 1 + breaksBefore text rest := by
  obtain ⟨before, rfl⟩ := h
  rw [lineOf, breaksBefore_append, count_utf8, List.count_append]
  omega

/-- The counter finds the line that the number of lines tells. -/
theorem threads_numbered {rule : Nat → Reader α} (h : ∀ line, LeavesEnd (rule line)) :
    Threads text (LineReader.numbered rule) (inText rule (text.count '\n' + 1)) := by
  intro c s hc hs
  have hline : (c.lookUp s).line = lineOf (text.count '\n' + 1) s := by
    rw [LineCounter.line_lookUp hc hs, lineOf_eq hs]
  unfold LineReader.numbered inText
  rw [← hline]
  cases hread : rule (c.lookUp s).line s with
  | error f =>
    simp only [readAs, hread]
    exact .error f
  | ok x =>
    simp only [readAs, hread]
    exact .ok x.1 (LineCounter.lookUp_counts hc s) ((h _ s x hread).trans hs)

theorem threads_unnumbered {read : Reader α} (h : LeavesEnd read) :
    Threads text (LineReader.unnumbered read) read := by
  intro c s hc hs
  unfold LineReader.unnumbered readAs
  cases hread : read s with
  | error f => exact .error f
  | ok x => exact .ok x.1 hc ((h s x hread).trans hs)

theorem Threads.map {read : LineReader α} {counted : Reader α} (h : Threads text read counted)
    (as : α → β) : Threads text (LineReader.map read as) (readAs counted as) := by
  intro c s hc hs
  refine (h c s hc hs).bind fun a c s hc hs => ?_
  exact .ok (as a) hc hs

theorem Threads.toEnd {read : LineReader α} {counted : Reader α} (h : Threads text read counted) :
    Threads text (fun lines => readToEnd (read lines)) (readToEnd counted) := by
  intro c s hc hs
  refine (h c s hc hs).bind fun a c s hc hs => ?_
  refine agree_bind (readEnd_leaves s) fun x hx => ?_
  exact .ok a hc (hx.trans hs)

theorem Threads.blockRule? {rule : LineReader α} {counted : Reader α}
    (h : Threads text rule counted) :
    Threads? text (fun lines => readBlockRule? (rule lines)) (readBlockRule? counted) := by
  intro c s hc hs
  show Agree? text (readBlockRule? (rule c) s) (readBlockRule? counted s)
  by_cases hclosed : (skipBlanks s).head? = some '\x7d'
  · rw [readBlockRule?_of_closed hclosed, readBlockRule?_of_closed hclosed]
    exact .none
  · rw [readBlockRule?_of_open hclosed, readBlockRule?_of_open hclosed]
    exact (h.toEnd c _ hc ((skipBlanks_suffix s).trans hs)).toOption

/-- The counter goes from item to item. -/
theorem Threads?.many {item : OptLineReader α} {counted : OptReader α}
    (h : Threads? text item counted) : Threads text (LineReader.many item) (readMany counted) := by
  intro c s hc hs
  induction hn : s.length using Nat.strongRecOn generalizing c s with
  | _ n ih =>
    have hitem := h c s hc hs
    rw [LineReader.many, readMany]
    generalize item c s = r at hitem ⊢
    generalize counted s = r' at hitem ⊢
    cases hitem with
    | error f => exact .error f
    | none => exact .ok [] hc hs
    | some a hc' hs' =>
      simp only
      split
      next hlt =>
        have hmany := ih _ (hn ▸ hlt) _ _ hc' hs' rfl
        generalize LineReader.many item _ _ = m at hmany ⊢
        generalize readMany counted _ = m' at hmany ⊢
        cases hmany with
        | error f => exact .error f
        | ok as hc hs => exact .ok (a :: as) hc hs
      next => exact .ok [a] hc' hs'

theorem threads_block {rule : Nat → Reader α} (h : ∀ line, Shortens (rule line)) :
    Threads text (LineReader.block rule) (readBlock (inText rule (text.count '\n' + 1))) := by
  intro c s hc hs
  have hrule : Threads text (LineReader.numbered rule) (inText rule (text.count '\n' + 1)) :=
    threads_numbered fun line => (h line).leaves
  refine agree_bind (readSymbol_shortened (by decide) s) fun x hx => ?_
  refine (hrule.blockRule?.many c _ hc (hx.1.trans hs)).bind fun rules c s hc hs => ?_
  exact .ok rules hc (((List.drop_suffix 1 _).trans (skipBlanks_suffix s)).trans hs)

theorem threads_directive_reader (d : Directive) :
    Threads text d.reader (d.read (text.count '\n' + 1)) := by
  unfold Directive.reader Directive.read
  cases d with
  | glyphClass => exact (threads_unnumbered (readToEnd_leaves readDefinition_leaves)).map _
  | contextual => exact (threads_block readContextual_shortens).map _
  | reorder => exact (threads_block readReorder_shortens).map _
  | simple => exact (threads_block readSimple_shortens).map _
  | ligature => exact (threads_block readLigature_shortens).map _
  | oneToMany => exact (threads_block readOneToMany_shortens).map _

theorem LineReader.directive_of_other (c : LineCounter) {s : List Char} (h : s.head? ≠ some '@') :
    LineReader.directive c s = .error ⟨s, [.directive]⟩ := by
  unfold LineReader.directive
  split
  next => exact absurd rfl h
  next => rfl

theorem threads_directive :
    Threads text LineReader.directive (readDirective (text.count '\n' + 1)) := by
  intro c s hc hs
  by_cases hat : s.head? = some '@'
  · obtain ⟨t, rfl⟩ := List.head?_eq_some_iff.mp hat
    refine agree_bind (readKeyword_leaves _ _ t) fun x hx => ?_
    exact threads_directive_reader x.1 c _ hc (hx.trans ((List.suffix_cons '@' t).trans hs))
  · rw [LineReader.directive_of_other c hat, readDirective_of_other hat]
    exact .error _

theorem threads_directive? :
    Threads? text LineReader.directive? (readDirective? (text.count '\n' + 1)) := by
  intro c s hc hs
  have hblanks := (skipBlanks_suffix s).trans hs
  unfold LineReader.directive? readDirective?
  cases hrest : skipBlanks s with
  | nil => exact .none
  | cons a t =>
    rw [hrest] at hblanks
    exact (threads_directive c _ hc hblanks).toOption

end Readers

section Files

/-- The directives of a text are those that are read when the number of its lines is known. -/
theorem many_directive?_agree (text : List Char) :
    Agree text (LineReader.many LineReader.directive? (.ofText text) text)
      (readMany (readDirective? (text.count '\n' + 1)) text) :=
  threads_directive?.many _ _ (LineCounter.counts_ofText text) List.suffix_rfl

/-- A text is read as it is when the number of its lines is known. -/
theorem readRuleFile_eq (text : List Char) :
    readRuleFile text = readParts (text.count '\n' + 1) text := by
  have hagree := many_directive?_agree text
  unfold readRuleFile readParts
  generalize LineReader.many LineReader.directive? (.ofText text) text = r at hagree ⊢
  generalize readMany (readDirective? (text.count '\n' + 1)) text = r' at hagree ⊢
  cases hagree with
  | error f => rfl
  | ok parts hc hs => rfl

theorem toOption_parse (source : String) : (RuleFile.parse source).toOption =
    (readParts (source.toList.count '\n' + 1) source.toList).toOption := by
  unfold RuleFile.parse
  rw [readRuleFile_eq]
  cases readParts (source.toList.count '\n' + 1) source.toList with
  | error e => rfl
  | ok file => rfl

/-- A text that is a rule file is read directive by directive to its end. -/
theorem RuleFile.parse_parts {source : String} {file : RuleFile}
    (h : RuleFile.parse source = .ok file) :
    ∃ parts rest, readMany (readDirective? (source.toList.count '\n' + 1)) source.toList =
      .ok (parts, rest) ∧ file = parts.foldl RuleFile.append {} := by
  unfold RuleFile.parse at h
  rw [readRuleFile_eq, readParts] at h
  cases hmany : readMany (readDirective? (source.toList.count '\n' + 1)) source.toList with
  | error e =>
    rw [hmany] at h
    cases h
  | ok x =>
    rw [hmany] at h
    exact ⟨x.1, x.2, rfl, (Except.ok.inj h).symm⟩

end Files

end Metamorphosis
