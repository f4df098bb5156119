import Metamorphosis.Proofs.Outcome
import Metamorphosis.Proofs.Source.Reader

namespace Metamorphosis

section Yields

variable {β γ : Type} {P : β → Prop} {Q : γ → Prop}

/-- Whatever is read satisfies `P`. -/
def Yields (P : β → Prop) (r : Except Failure β) : Prop :=
  ∀ b, r = .ok b → P b

theorem yields_ok {b : β} (h : P b) : Yields P (.ok b) := by
  intro b' hb
  cases hb
  exact h

theorem yields_error (f : Failure) : Yields P (.error f) := by
  intro b hb
  cases hb

theorem yields_none : Yields (fun o => ∀ b ∈ o, P b) (.ok none) := by
  apply yields_ok
  intro b hb
  cases hb

theorem yields_some {b : β} (h : P b) : Yields (fun o => ∀ b ∈ o, P b) (.ok (some b)) := by
  apply yields_ok
  intro b' hb
  cases hb
  exact h

theorem Yields.mono {P' : β → Prop} {r : Except Failure β} (h : Yields P r)
    (himp : ∀ b, P b → P' b) : Yields P' r :=
  fun b hb => himp b (h b hb)

theorem Yields.bind {r : Except Failure β} {k : β → Except Failure γ} (hr : Yields P r)
    (hk : ∀ b, P b → Yields Q (k b)) : Yields Q (r >>= k) := by
  cases r with
  | error f => exact yields_error f
  | ok b => exact hk b (hr b rfl)

theorem Yields.labelled {what : Expected} {r : Except Failure β} (h : Yields P r) :
    Yields P (labelled what r) := by
  cases r with
  | error f => exact yields_error _
  | ok b => exact h

end Yields

section Texts

theorem skipSpaces_suffix (s : List Char) : skipSpaces s <:+ s :=
  List.dropWhile_suffix _

theorem afterWord?_eq_some {word s t : List Char} (h : afterWord? word s = some t) :
    s = word ++ t := by
  induction word generalizing s with
  | nil => exact Option.some.inj h
  | cons c word ih =>
    cases s with
    | nil => cases h
    | cons d s =>
      unfold afterWord? at h
      split at h
      next hc => rw [beq_iff_eq.mp hc, ih h, List.cons_append]
      next => cases h

theorem afterWord?_suffix {word s t : List Char} (h : afterWord? word s = some t) : t <:+ s :=
  ⟨word, (afterWord?_eq_some h).symm⟩

/-- An end of a text that is not all of it. -/
def Shortened (s t : List Char) : Prop :=
  t <:+ s ∧ t.length < s.length

theorem Shortened.trans_suffix {s t u : List Char} (h : Shortened s t) (hu : u <:+ t) :
    Shortened s u :=
  ⟨hu.trans h.1, Nat.lt_of_le_of_lt hu.length_le h.2⟩

theorem shortened_of_suffix {s t u : List Char} (ht : t <:+ s) (h : Shortened t u) :
    Shortened s u :=
  ⟨h.1.trans ht, Nat.lt_of_lt_of_le h.2 ht.length_le⟩

theorem afterComment?_suffix {s t : List Char} (h : afterComment? s = some t) : t <:+ s := by
  unfold afterComment? at h
  split at h
  next r =>
    rw [eq_of_commentEnd? h]
    exact (List.dropWhile_suffix isLineChar).trans (List.suffix_cons '#' r)
  next => cases h

theorem skipBlanks_suffix (s : List Char) : skipBlanks s <:+ s := by
  fun_induction skipBlanks s with
  | case1 s t h hlt ih =>
    exact (ih.trans (afterComment?_suffix h)).trans (List.dropWhile_suffix isBlank)
  | case2 s h => exact List.dropWhile_suffix isBlank

end Texts

section Items

variable {α : Type}

/-- The reader leaves an end of the text. -/
def LeavesEnd (read : Reader α) : Prop :=
  ∀ s, Yields (fun x => x.2 <:+ s) (read s)

/-- The reader leaves an end of the text, if it reads something. -/
def LeavesEnd? (read : OptReader α) : Prop :=
  ∀ s, Yields (fun o => ∀ x ∈ o, x.2 <:+ s) (read s)

theorem readName?_shortened {s : List Char} {x : String × List Char} (h : readName? s = some x) :
    Shortened s x.2 := by
  unfold readName? at h
  split at h
  next => cases h
  next hne =>
    rw [← Option.some.inj h]
    refine ⟨List.dropWhile_suffix isNameChar, ?_⟩
    have hpos : 0 < (s.takeWhile isNameChar).length := by
      rw [List.length_pos_iff]
      simpa using hne
    have hlength := congrArg List.length (List.takeWhile_append_dropWhile (p := isNameChar) (l := s))
    rw [List.length_append] at hlength
    show (s.dropWhile isNameChar).length < s.length
    omega

theorem readName_leaves : LeavesEnd readName := by
  intro s
  unfold readName
  split
  next x h => exact yields_ok (readName?_shortened h).1
  next => exact yields_error _

theorem readSymbol_shortened {sign : String} (hsign : sign.toList ≠ []) (s : List Char) :
    Yields (fun x => Shortened s x.2) (readSymbol sign s) := by
  unfold readSymbol
  split
  next t h =>
    apply yields_ok
    refine shortened_of_suffix (skipSpaces_suffix s) ⟨afterWord?_suffix h, ?_⟩
    have hpos := List.length_pos_iff.mpr hsign
    rw [afterWord?_eq_some h, List.length_append]
    show t.length < _
    omega
  next => exact yields_error _

theorem readMany_leaves {item : OptReader α} (h : LeavesEnd? item) : LeavesEnd (readMany item) := by
  intro s
  fun_induction readMany item s with
  | case1 => exact yields_error _
  | case2 => exact yields_ok List.suffix_rfl
  | case3 => exact yields_error _
  | case4 s a t hitem hlt as u hmany ih =>
    rw [hmany] at ih
    exact yields_ok ((ih _ rfl).trans (h s _ hitem _ rfl))
  | case5 s a t hitem hlt => exact yields_ok (h s _ hitem _ rfl)

theorem readSome_leaves {item : OptReader α} {missing : List Char → Failure}
    (h : LeavesEnd? item) : LeavesEnd (readSome item missing) := by
  intro s
  unfold readSome
  refine (h s).bind fun o ho => ?_
  cases o with
  | none => exact yields_error _
  | some x =>
    refine (readMany_leaves h x.2).bind fun y hy => ?_
    exact yields_ok (hy.trans (ho x rfl))

theorem readBehind_leaves {sign : String} {item : OptReader α} (h : LeavesEnd? item) :
    LeavesEnd? (readBehind sign item) := by
  intro s
  unfold readBehind
  split
  next t ht =>
    refine (h _).mono fun o ho x hx => ?_
    have hitem := (ho x hx).trans (skipSpaces_suffix t)
    exact hitem.trans ((afterWord?_suffix ht).trans (skipSpaces_suffix s))
  next =>
    apply yields_ok
    intro x hx
    cases hx

theorem readSeparated_leaves {sign : String} {item : OptReader α} (h : LeavesEnd? item) :
    LeavesEnd (readSeparated sign item) := by
  intro s
  unfold readSeparated
  refine (h s).bind fun o ho => ?_
  cases o with
  | none => exact yields_error _
  | some x =>
    refine (readMany_leaves (readBehind_leaves h) x.2).bind fun y hy => ?_
    exact yields_ok (hy.trans (ho x rfl))

end Items

section Rules

theorem readElement?_leaves : LeavesEnd? readElement? := by
  intro s
  unfold readElement?
  split
  next t =>
    refine (readName_leaves t).bind fun x hx => yields_ok ?_
    intro y hy
    cases hy
    exact hx.trans (List.suffix_cons '@' t)
  next =>
    apply yields_ok
    intro y hy
    obtain ⟨x, hx, rfl⟩ := Option.map_eq_some_iff.mp hy
    exact (readName?_shortened hx).1

theorem readElement_leaves : LeavesEnd readElement := by
  intro s
  unfold readElement
  refine (readElement?_leaves s).bind fun o ho => ?_
  cases o with
  | none => exact yields_error _
  | some x => exact yields_ok (ho x rfl)

theorem readPattern_leaves : LeavesEnd readPattern := by
  have hitem : LeavesEnd? fun s => readElement? (skipSpaces s) := fun s =>
    (readElement?_leaves _).mono fun o ho x hx => (ho x hx).trans (skipSpaces_suffix s)
  exact fun s => (readSome_leaves hitem s).labelled

theorem readFirstSide_leaves : LeavesEnd readFirstSide := by
  have hitem : LeavesEnd? readFirstSideElement? := by
    intro s
    unfold readFirstSideElement?
    refine (readElement?_leaves _).bind fun o ho => ?_
    have hrest : ∀ x ∈ o, x.2 <:+ s := fun x hx => (ho x hx).trans (skipSpaces_suffix s)
    split
    next name t =>
      apply yields_ok
      intro x hx
      split at hx
      next => cases hx
      next => exact hrest x hx
    next => exact yields_ok hrest
  exact fun s => (readSome_leaves hitem s).labelled

theorem readKeyword_leaves {α : Type} (words : List (String × α)) (missing : Expected) :
    LeavesEnd (readKeyword words missing) := by
  intro s
  unfold readKeyword
  split
  next x h =>
    obtain ⟨word, -, hword⟩ := List.exists_of_findSome?_eq_some h
    obtain ⟨t, ht, rfl⟩ := Option.map_eq_some_iff.mp hword
    exact yields_ok (afterWord?_suffix ht)
  next => exact yields_error _

theorem readAs_leaves {α β : Type} {read : Reader α} (h : LeavesEnd read) (as : α → β) :
    LeavesEnd (readAs read as) :=
  fun s => (h s).bind fun _ hx => yields_ok hx

theorem ContextKeyword.read_leaves (k : ContextKeyword) : LeavesEnd k.read := by
  unfold ContextKeyword.read
  cases k with
  | after => exact readAs_leaves readPattern_leaves _
  | before => exact readAs_leaves readPattern_leaves _
  | when => exact readAs_leaves readPattern_leaves _
  | between =>
    intro s
    refine (readFirstSide_leaves s).bind fun x hx => ?_
    refine (readSymbol_shortened (by decide) x.2).bind fun y hy => ?_
    refine (readPattern_leaves y.2).bind fun z hz => ?_
    exact yields_ok (hz.trans (hy.1.trans hx))

theorem readContext_leaves : LeavesEnd readContext := by
  intro s
  refine (readKeyword_leaves _ _ s).bind fun x hx => ?_
  exact (x.1.read_leaves x.2).mono fun y hy => hy.trans hx

theorem readPair?_leaves : LeavesEnd? readPair? := by
  intro s
  unfold readPair?
  refine (readElement?_leaves s).bind fun o ho => ?_
  cases o with
  | none =>
    apply yields_ok
    intro x hx
    cases hx
  | some x =>
    refine (readSymbol_shortened (by decide) x.2).bind fun y hy => ?_
    refine (readElement_leaves (skipSpaces y.2)).labelled.bind fun z hz => yields_ok ?_
    intro w hw
    cases hw
    exact (hz.trans (skipSpaces_suffix y.2)).trans (hy.1.trans (ho x rfl))

/-- The reader takes some text and leaves the rest. -/
def Shortens {α : Type} (read : Reader α) : Prop :=
  ∀ s, Yields (fun x => Shortened s x.2) (read s)

theorem Shortens.leaves {α : Type} {read : Reader α} (h : Shortens read) : LeavesEnd read :=
  fun s => (h s).mono fun _ hx => hx.1

/-- The sign of a rule takes up some text. -/
theorem readAround_shortens {α β γ : Type} {left : Reader α} (hleft : LeavesEnd left)
    {sign : Reader Unit} (hsign : Shortens sign) {right : Reader β} (hright : LeavesEnd right)
    (rule : α → β → Nat → γ) (line : Nat) : Shortens (readAround left sign right rule line) := by
  intro s
  refine (hleft s).bind fun x hx => ?_
  refine (hsign x.2).bind fun y hy => ?_
  refine (hright y.2).bind fun z hz => ?_
  exact yields_ok (shortened_of_suffix hx (hy.trans_suffix hz))

theorem leavesEnd_skipSpaces {α : Type} {read : Reader α} (h : LeavesEnd read) :
    LeavesEnd fun s => read (skipSpaces s) :=
  fun s => (h _).mono fun _ hx => hx.trans (skipSpaces_suffix s)

variable (line : Nat)

theorem readContextual_shortens : Shortens (readContextual line) :=
  readAround_shortens readContext_leaves (readSymbol_shortened (by decide))
    (leavesEnd_skipSpaces (readSeparated_leaves readPair?_leaves)) _ line

theorem readArrow_shortens : Shortens readArrow := by
  intro s
  unfold readArrow
  split
  next t h =>
    have hsign : ">".toList ≠ [] := by decide
    have hsymbol := readSymbol_shortened hsign s
    rw [readSymbol, h] at hsymbol
    exact hsymbol
  next => exact readSymbol_shortened (by decide) s

theorem readReorder_shortens : Shortens (readReorder line) :=
  readAround_shortens readPattern_leaves readArrow_shortens readPattern_leaves _ line

theorem readSimple_shortens : Shortens (readSimple line) :=
  readAround_shortens readElement_leaves (readSymbol_shortened (by decide))
    (leavesEnd_skipSpaces readElement_leaves) _ line

theorem readLigature_shortens : Shortens (readLigature line) :=
  readAround_shortens readElement_leaves (readSymbol_shortened (by decide))
    (leavesEnd_skipSpaces (readSeparated_leaves readElement?_leaves)) _ line

theorem readOneToMany_shortens : Shortens (readOneToMany line) :=
  readAround_shortens readElement_leaves (readSymbol_shortened (by decide)) readPattern_leaves _ line

end Rules

section Directives

theorem readBreak_leaves : LeavesEnd readBreak := by
  intro s
  unfold readBreak
  split
  next => exact yields_ok List.nil_suffix
  next t => exact yields_ok (List.suffix_cons '\n' t)
  next t => exact yields_ok ((List.suffix_cons '\n' t).trans (List.suffix_cons '\r' _))
  next => exact yields_ok List.suffix_rfl
  next =>
    split
    next u hu => exact yields_ok (afterComment?_suffix hu)
    next => exact yields_error _

theorem readEnd_leaves : LeavesEnd readEnd :=
  leavesEnd_skipSpaces readBreak_leaves

theorem readToEnd_leaves {α : Type} {read : Reader α} (h : LeavesEnd read) :
    LeavesEnd (readToEnd read) := by
  intro s
  refine (h s).bind fun x hx => ?_
  exact (readEnd_leaves x.2).bind fun y hy => yields_ok (hy.trans hx)

theorem Shortens.toEnd {α : Type} {read : Reader α} (h : Shortens read) :
    Shortens (readToEnd read) := by
  intro s
  refine (h s).bind fun x hx => ?_
  exact (readEnd_leaves x.2).bind fun y hy => yields_ok (hx.trans_suffix hy)

theorem readDefinition_leaves : LeavesEnd readDefinition := by
  intro s
  have hnames : LeavesEnd readNames := readSome_leaves fun s => yields_ok fun x hx =>
    (readName?_shortened hx).1.trans (skipSpaces_suffix s)
  have hmembers : LeavesEnd readMembers := by
    intro s
    unfold readMembers
    split
    next t ht =>
      refine (hnames t).bind fun x hx => ?_
      refine (readSymbol_shortened (by decide) x.2).bind fun y hy => yields_ok ?_
      exact (hy.1.trans hx).trans ((afterWord?_suffix ht).trans (skipSpaces_suffix s))
    next => exact hnames s
  unfold readDefinition
  split
  next => exact yields_error _
  next =>
    refine (readName_leaves _).bind fun x hx => ?_
    refine (readSymbol_shortened (by decide) x.2).bind fun y hy => ?_
    refine (hmembers y.2).bind fun z hz => yields_ok ?_
    exact (hz.trans hy.1).trans (hx.trans (skipSpaces_suffix s))

theorem readBlockRule?_shortens {α : Type} {rule : Reader α} (h : Shortens rule) (s : List Char) :
    Yields (fun o => ∀ x ∈ o, Shortened s x.2) (readBlockRule? rule s) := by
  unfold readBlockRule?
  split
  next =>
    apply yields_ok
    intro x hx
    cases hx
  next =>
    refine (h.toEnd _).bind fun x hx => yields_ok ?_
    intro y hy
    cases hy
    exact shortened_of_suffix (skipBlanks_suffix s) hx

theorem readBlock_leaves {α : Type} {rule : Reader α} (h : Shortens rule) :
    LeavesEnd (readBlock rule) := by
  intro s
  have hrules : LeavesEnd? (readBlockRule? rule) := fun s =>
    (readBlockRule?_shortens h s).mono fun o ho x hx => (ho x hx).1
  refine (readSymbol_shortened (by decide) s).bind fun x hx => ?_
  refine (readMany_leaves hrules x.2).bind fun y hy => yields_ok ?_
  exact ((List.drop_suffix 1 _).trans (skipBlanks_suffix y.2)).trans (hy.trans hx.1)

theorem inText_shortens {α : Type} {rule : Nat → Reader α} (h : ∀ line, Shortens (rule line))
    (n : Nat) : Shortens (inText rule n) :=
  fun s => h (lineOf n s) s

theorem Directive.read_leaves (d : Directive) (n : Nat) : LeavesEnd (d.read n) := by
  have hblock : ∀ {α : Type} {rule : Nat → Reader α}, (∀ line, Shortens (rule line)) →
      ∀ as : List α → RuleFile, LeavesEnd (readAs (readBlock (inText rule n)) as) :=
    fun hrule as => readAs_leaves (readBlock_leaves (inText_shortens hrule n)) as
  unfold Directive.read
  cases d with
  | glyphClass => exact readAs_leaves (readToEnd_leaves readDefinition_leaves) _
  | contextual => exact hblock readContextual_shortens _
  | reorder => exact hblock readReorder_shortens _
  | simple => exact hblock readSimple_shortens _
  | ligature => exact hblock readLigature_shortens _
  | oneToMany => exact hblock readOneToMany_shortens _

theorem readDirective_shortens (n : Nat) : Shortens (readDirective n) := by
  intro s
  unfold readDirective
  split
  next t =>
    refine (readKeyword_leaves _ _ t).bind fun x hx => ?_
    refine (x.1.read_leaves n x.2).mono fun y hy => ?_
    have hy : y.2 <:+ t := hy.trans hx
    exact ⟨hy.trans (List.suffix_cons '@' t), Nat.lt_succ_of_le hy.length_le⟩
  next => exact yields_error _

theorem readDirective?_shortens (n : Nat) (s : List Char) :
    Yields (fun o => ∀ x ∈ o, Shortened s x.2) (readDirective? n s) := by
  unfold readDirective?
  split
  next =>
    apply yields_ok
    intro x hx
    cases hx
  next =>
    refine (readDirective_shortens n _).bind fun x hx => yields_ok ?_
    intro y hy
    cases hy
    exact shortened_of_suffix (skipBlanks_suffix s) hx

end Directives

section Files

/-- Items that each take some text are read until there is none. -/
theorem readMany_eq {α : Type} {item : OptReader α}
    (h : ∀ s, Yields (fun o => ∀ x ∈ o, Shortened s x.2) (item s)) (s : List Char) :
    readMany item s = item s >>= fun o =>
      (o.map fun x => (readMany item x.2).map fun r => (x.1 :: r.1, r.2)).getD (.ok ([], s)) := by
  cases hitem : item s with
  | error f => rw [readMany, hitem]; rfl
  | ok o =>
    cases o with
    | none => exact readMany_of_none hitem
    | some x => exact readMany_of_some hitem (h s _ hitem x rfl).2

/-- Items that were read are none, or one and those after it. -/
theorem readMany_cases {α : Type} {item : OptReader α}
    (hitem : ∀ s, Yields (fun o => ∀ x ∈ o, Shortened s x.2) (item s)) {s u : List Char}
    {items : List α} (h : readMany item s = .ok (items, u)) :
    (items = [] ∧ u = s) ∨
      ∃ x rest, item s = .ok (some x) ∧ Shortened s x.2 ∧ readMany item x.2 = .ok (rest, u) ∧
        items = x.1 :: rest := by
  rw [readMany_eq hitem] at h
  obtain ⟨o, ho, h⟩ := except_bind_ok h
  cases o with
  | none =>
    cases h
    exact .inl ⟨rfl, rfl⟩
  | some x =>
    refine .inr ?_
    rw [Option.map_some, Option.getD_some] at h
    cases hmore : readMany item x.2 with
    | error e =>
      rw [hmore] at h
      cases h
    | ok y =>
      rw [hmore] at h
      cases h
      exact ⟨x, y.1, ho, hitem s _ ho x rfl, hmore, rfl⟩

theorem RuleFile.append_empty (f : RuleFile) : f.append {} = f := by
  simp [RuleFile.append]

theorem RuleFile.empty_append (f : RuleFile) : RuleFile.append {} f = f := rfl

theorem RuleFile.append_assoc (f g h : RuleFile) : (f.append g).append h = f.append (g.append h) := by
  simp [RuleFile.append]

theorem RuleFile.foldl_append (f : RuleFile) (parts : List RuleFile) :
    parts.foldl RuleFile.append f = f.append (parts.foldl RuleFile.append {}) := by
  induction parts generalizing f with
  | nil => exact (RuleFile.append_empty f).symm
  | cons part parts ih =>
    rw [List.foldl_cons, List.foldl_cons, ih, ih (RuleFile.append {} part), RuleFile.empty_append,
      RuleFile.append_assoc]

theorem readParts_of_nil {n : Nat} {s : List Char} (h : skipBlanks s = []) :
    readParts n s = .ok {} := by
  have hnone : readDirective? n s = .ok none := by
    rw [readDirective?, h]
    rfl
  rw [readParts, readMany_of_none hnone]
  rfl

/-- The first directive of a text, and then the others. -/
theorem readParts_of_ne_nil {n : Nat} {s : List Char} (h : skipBlanks s ≠ []) :
    readParts n s = readDirective n (skipBlanks s) >>= fun x =>
      (readParts n x.2).map x.1.append := by
  have hdirective : readDirective? n s =
      readDirective n (skipBlanks s) >>= fun x => .ok (some x) := by
    unfold readDirective?
    split
    next hnil => exact absurd hnil h
    next => rfl
  rw [readParts, readMany_eq (readDirective?_shortens n), hdirective]
  cases readDirective n (skipBlanks s) with
  | error f => rfl
  | ok x =>
    simp only [bind, Except.bind, Option.map_some, Option.getD_some, readParts]
    cases readMany (readDirective? n) x.2 with
    | error f => rfl
    | ok r => exact congrArg Except.ok (RuleFile.foldl_append x.1 r.1)

/-- Only what stands behind blanks and comments matters. -/
theorem readParts_congr {n : Nat} {s t : List Char} (h : skipBlanks s = skipBlanks t) :
    readParts n s = readParts n t := by
  by_cases hnil : skipBlanks s = []
  · rw [readParts_of_nil hnil, readParts_of_nil (h ▸ hnil)]
  · rw [readParts_of_ne_nil hnil, readParts_of_ne_nil (h ▸ hnil), h]

end Files

end Metamorphosis
