import Metamorphosis.Proofs.Source.Printing

namespace Metamorphosis

section Items

variable {α β γ : Type} {P : α → Prop} {Q : β → Prop}

/-- Whatever the reader gives satisfies `P`. -/
def Gives (P : α → Prop) (read : Reader α) : Prop :=
  ∀ s, Yields (fun x => P x.1) (read s)

/-- Whatever the reader gives satisfies `P`, if it gives something. -/
def Gives? (P : α → Prop) (read : OptReader α) : Prop :=
  ∀ s, Yields (fun o => ∀ x ∈ o, P x.1) (read s)

theorem yields_true (r : Except Failure α) : Yields (fun _ => True) r :=
  fun _ _ => trivial

/-- There are some, and all of them satisfy `P`. -/
def SomeAll (P : α → Prop) (as : List α) : Prop :=
  as ≠ [] ∧ ∀ a ∈ as, P a

theorem someAll_cons {a : α} {as : List α} (ha : P a) (has : ∀ b ∈ as, P b) : SomeAll P (a :: as) :=
  ⟨List.cons_ne_nil a as, List.forall_mem_cons.mpr ⟨ha, has⟩⟩

theorem readMany_gives {item : OptReader α} (h : Gives? P item) :
    Gives (fun as => ∀ a ∈ as, P a) (readMany item) := by
  intro s
  fun_induction readMany item s with
  | case1 => exact yields_error _
  | case2 => exact yields_ok (by simp)
  | case3 => exact yields_error _
  | case4 s a t hitem hlt as u hmany ih =>
    rw [hmany] at ih
    exact yields_ok (List.forall_mem_cons.mpr ⟨h s _ hitem _ rfl, ih _ rfl⟩)
  | case5 s a t hitem hlt =>
    exact yields_ok (List.forall_mem_singleton.mpr (h s _ hitem _ rfl))

theorem readSome_gives {item : OptReader α} (h : Gives? P item) (missing : List Char → Failure) :
    Gives (SomeAll P) (readSome item missing) := by
  intro s
  unfold readSome
  refine (h s).bind fun o ho => ?_
  cases o with
  | none => exact yields_error _
  | some x =>
    exact (readMany_gives h x.2).bind fun y hy => yields_ok (someAll_cons (ho x rfl) hy)

theorem readBehind_gives {item : OptReader α} (h : Gives? P item) (sign : String) :
    Gives? P (readBehind sign item) := by
  intro s
  unfold readBehind
  split
  next t _ => exact h _
  next => exact yields_none

theorem readSeparated_gives {item : OptReader α} (h : Gives? P item) (sign : String) :
    Gives (SomeAll P) (readSeparated sign item) := by
  intro s
  unfold readSeparated
  refine (h s).bind fun o ho => ?_
  cases o with
  | none => exact yields_error _
  | some x =>
    refine (readMany_gives (readBehind_gives h sign) x.2).bind fun y hy => ?_
    exact yields_ok (someAll_cons (ho x rfl) hy)

theorem readAs_gives {read : Reader α} (h : Gives P read) {as : α → β} (has : ∀ a, P a → Q (as a)) :
    Gives Q (readAs read as) :=
  fun s => (h s).bind fun x hx => yields_ok (has x.1 hx)

theorem readAround_gives {left : Reader α} (hleft : Gives P left) (sign : Reader Unit)
    {right : Reader β} (hright : Gives Q right) {rule : α → β → Nat → γ} {R : γ → Prop}
    (hrule : ∀ a b i, P a → Q b → R (rule a b i)) (line : Nat) :
    Gives R (readAround left sign right rule line) := by
  intro s
  refine (hleft s).bind fun x hx => ?_
  refine (yields_true (sign x.2)).bind fun y _ => ?_
  exact (hright y.2).bind fun z hz => yields_ok (hrule x.1 z.1 _ hx hz)

theorem inText_gives {rule : Nat → Reader α} (h : ∀ line, Gives P (rule line)) (n : Nat) :
    Gives P (inText rule n) :=
  fun s => h (lineOf n s) s

theorem readToEnd_gives {read : Reader α} (h : Gives P read) : Gives P (readToEnd read) := by
  intro s
  exact (h s).bind fun x hx => (yields_true (readEnd x.2)).bind fun _ _ => yields_ok hx

theorem readBlock_gives {rule : Reader α} (h : Gives P rule) :
    Gives (fun rules => ∀ r ∈ rules, P r) (readBlock rule) := by
  have hrule : Gives? P (readBlockRule? rule) := by
    intro s
    unfold readBlockRule?
    split
    next => exact yields_none
    next => exact (readToEnd_gives h _).bind fun x hx => yields_some hx
  intro s
  refine (yields_true (readSymbol "\x7b" s)).bind fun x _ => ?_
  exact (readMany_gives hrule x.2).bind fun y hy => yields_ok hy

end Items

section Rules

theorem isName_of_readName? {s : List Char} {x : String × List Char} (h : readName? s = some x) :
    IsName x.1 := by
  unfold readName? at h
  split at h
  next => cases h
  next hne =>
    cases h
    unfold IsName
    rw [String.toList_ofList]
    exact ⟨by simpa using hne, List.all_eq_true.mp List.all_takeWhile⟩

theorem readName_gives : Gives IsName readName := by
  intro s
  unfold readName
  split
  next x h => exact yields_ok (isName_of_readName? h)
  next => exact yields_error _

theorem readElement?_gives : Gives? Element.Named readElement? := by
  intro s
  unfold readElement?
  split
  next t => exact (readName_gives t).bind fun x hx => yields_some hx
  next =>
    apply yields_ok
    intro y hy
    obtain ⟨x, hx, rfl⟩ := Option.map_eq_some_iff.mp hy
    exact isName_of_readName? hx

theorem readElement_gives : Gives Element.Named readElement := by
  intro s
  unfold readElement
  refine (readElement?_gives s).bind fun o ho => ?_
  cases o with
  | none => exact yields_error _
  | some x => exact yields_ok (ho x rfl)

theorem readPattern_gives : Gives (SomeAll Element.Named) readPattern := by
  have hitem : Gives? Element.Named fun s => readElement? (skipSpaces s) :=
    fun s => readElement?_gives (skipSpaces s)
  exact fun s => (readSome_gives hitem noElement s).labelled

/-- The word after the first side of a `between` context is no glyph of that side. -/
theorem readFirstSide_gives :
    Gives (SomeAll fun e => e.Named ∧ e ≠ .glyph betweenWord) readFirstSide := by
  have hitem : Gives? (fun e : Element => e.Named ∧ e ≠ .glyph betweenWord)
      readFirstSideElement? := by
    intro s
    unfold readFirstSideElement?
    refine (readElement?_gives (skipSpaces s)).bind fun o ho => ?_
    split
    next name t =>
      apply yields_ok
      intro x hx
      split at hx
      next => cases hx
      next hword =>
        cases hx
        refine ⟨ho _ rfl, ?_⟩
        intro heq
        exact hword (beq_iff_eq.mpr (Element.glyph.inj heq))
    next hother =>
      apply yields_ok
      intro x hx
      refine ⟨ho x hx, ?_⟩
      intro heq
      obtain ⟨e, t⟩ := x
      cases heq
      cases hx
      exact hother betweenWord t rfl
  exact fun s => (readSome_gives hitem _ s).labelled

theorem ContextKeyword.read_gives (k : ContextKeyword) : Gives Context.Printable k.read := by
  unfold ContextKeyword.read
  cases k with
  | after => exact readAs_gives readPattern_gives fun _ h => h
  | before => exact readAs_gives readPattern_gives fun _ h => h
  | when => exact readAs_gives readPattern_gives fun _ h => h
  | between =>
    intro s
    refine (readFirstSide_gives s).bind fun x hx => ?_
    refine (yields_true (readSymbol betweenWord x.2)).bind fun y _ => ?_
    refine (readPattern_gives y.2).bind fun z hz => yields_ok ?_
    exact ⟨⟨hx.1, fun e he => (hx.2 e he).1⟩, hz, fun hword => (hx.2 _ hword).2 rfl⟩

theorem readContext_gives : Gives Context.Printable readContext := by
  intro s
  exact (yields_true (readKeyword _ _ s)).bind fun x _ => x.1.read_gives x.2

theorem readPair?_gives : Gives? Pair.Named readPair? := by
  intro s
  unfold readPair?
  refine (readElement?_gives s).bind fun o ho => ?_
  cases o with
  | none => exact yields_none
  | some x =>
    refine (yields_true (readSymbol "=>" x.2)).bind fun y _ => ?_
    refine (readElement_gives (skipSpaces y.2)).labelled.bind fun z hz => yields_some ?_
    exact ⟨ho x rfl, hz⟩

variable (line : Nat)

theorem readContextual_gives : Gives ContextualRule.Printable (readContextual line) :=
  readAround_gives readContext_gives _
    (fun s => readSeparated_gives readPair?_gives "," (skipSpaces s))
    (fun _ _ _ hc hp => ⟨hc, hp⟩) line

theorem readReorder_gives : Gives ReorderRule.Printable (readReorder line) :=
  readAround_gives readPattern_gives _ readPattern_gives (fun _ _ _ hb ha => ⟨hb, ha⟩) line

theorem readSimple_gives : Gives SimpleRule.Printable (readSimple line) :=
  readAround_gives readElement_gives _ (fun s => readElement_gives (skipSpaces s))
    (fun _ _ _ ht hr => ⟨ht, hr⟩) line

theorem readLigature_gives : Gives LigatureRule.Printable (readLigature line) :=
  readAround_gives readElement_gives _
    (fun s => readSeparated_gives readElement?_gives "+" (skipSpaces s))
    (fun _ _ _ hl hc => ⟨hl, hc⟩) line

theorem readOneToMany_gives : Gives OneToManyRule.Printable (readOneToMany line) :=
  readAround_gives readElement_gives _ readPattern_gives (fun _ _ _ hs ht => ⟨hs, ht⟩) line

end Rules

section Files

theorem readNames_gives : Gives (SomeAll IsName) readNames := by
  refine readSome_gives ?_ noElement
  intro s
  exact yields_ok fun x hx => isName_of_readName? hx

theorem readMembers_gives : Gives (SomeAll IsName) readMembers := by
  intro s
  unfold readMembers
  split
  next t _ =>
    refine (readNames_gives t).bind fun x hx => ?_
    exact (yields_true (readSymbol "]" x.2)).bind fun _ _ => yields_ok hx
  next => exact readNames_gives s

theorem readDefinition_gives : Gives (fun c => c.Named ∧ c.glyphs ≠ []) readDefinition := by
  intro s
  unfold readDefinition
  split
  next => exact yields_error _
  next =>
    refine (readName_gives _).bind fun x hx => ?_
    refine (yields_true (readSymbol "=" x.2)).bind fun y _ => ?_
    exact (readMembers_gives y.2).bind fun z hz => yields_ok ⟨⟨hx, hz.2⟩, hz.1⟩

theorem RuleFile.printable_empty : RuleFile.Printable {} := by
  simp [RuleFile.Printable]

theorem RuleFile.Printable.append {f g : RuleFile} (hf : f.Printable) (hg : g.Printable) :
    (f.append g).Printable := by
  obtain ⟨hf₁, hf₂, hf₃, hf₄, hf₅, hf₆⟩ := hf
  obtain ⟨hg₁, hg₂, hg₃, hg₄, hg₅, hg₆⟩ := hg
  simp only [RuleFile.Printable, RuleFile.append, List.forall_mem_append]
  exact ⟨⟨hf₁, hg₁⟩, ⟨hf₂, hg₂⟩, ⟨hf₃, hg₃⟩, ⟨hf₄, hg₄⟩, ⟨hf₅, hg₅⟩, hf₆, hg₆⟩

theorem Directive.read_gives (d : Directive) (n : Nat) : Gives RuleFile.Printable (d.read n) := by
  unfold Directive.read
  cases d with
  | glyphClass =>
    refine readAs_gives (readToEnd_gives readDefinition_gives) fun c hc => ?_
    simpa [RuleFile.Printable] using hc
  | contextual =>
    refine readAs_gives (readBlock_gives (inText_gives readContextual_gives n)) fun rules h => ?_
    simpa [RuleFile.Printable] using h
  | reorder =>
    refine readAs_gives (readBlock_gives (inText_gives readReorder_gives n)) fun rules h => ?_
    simpa [RuleFile.Printable] using h
  | simple =>
    refine readAs_gives (readBlock_gives (inText_gives readSimple_gives n)) fun rules h => ?_
    simpa [RuleFile.Printable] using h
  | ligature =>
    refine readAs_gives (readBlock_gives (inText_gives readLigature_gives n)) fun rules h => ?_
    simpa [RuleFile.Printable] using h
  | oneToMany =>
    refine readAs_gives (readBlock_gives (inText_gives readOneToMany_gives n)) fun rules h => ?_
    simpa [RuleFile.Printable] using h

theorem readDirective?_gives (n : Nat) : Gives? RuleFile.Printable (readDirective? n) := by
  intro s
  unfold readDirective?
  split
  next => exact yields_none
  next =>
    unfold readDirective
    split
    next t _ =>
      rw [bind_assoc]
      refine (yields_true (readKeyword _ _ t)).bind fun x _ => ?_
      exact (x.1.read_gives n x.2).bind fun y hy => yields_some hy
    next => exact yields_error _

/-- A rule file that was read can be written down again. -/
theorem RuleFile.printable_of_parse {source : String} {file : RuleFile}
    (h : RuleFile.parse source = .ok file) : file.Printable := by
  obtain ⟨parts, rest, hmany, rfl⟩ := RuleFile.parse_parts h
  have hparts := readMany_gives (readDirective?_gives _) source.toList _ hmany
  have hfold : ∀ (parts : List RuleFile) (f : RuleFile), f.Printable →
      (∀ part ∈ parts, part.Printable) → (parts.foldl RuleFile.append f).Printable := by
    intro parts
    induction parts with
    | nil => exact fun f hf _ => hf
    | cons part parts ih =>
      intro f hf hparts
      obtain ⟨hpart, hparts⟩ := List.forall_mem_cons.mp hparts
      exact ih _ (hf.append hpart) hparts
  exact hfold parts {} RuleFile.printable_empty hparts

end Files

end Metamorphosis
