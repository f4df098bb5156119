import Metamorphosis.Proofs.Source.Inline
import Metamorphosis.Proofs.Source.Remainder

namespace Metamorphosis

section Readings

variable {α β γ : Type} {R S : List Char → List Char → Prop}

/-- Both fail, or the second reads what `f` makes of what the first reads, up to related places. -/
inductive SameReading (f : α → β) (R : List Char → List Char → Prop) :
    Except Failure (α × List Char) → Except Failure (β × List Char) → Prop
  | error (e e' : Failure) : SameReading f R (.error e) (.error e')
  | ok (a : α) {s t : List Char} (h : R s t) : SameReading f R (.ok (a, s)) (.ok (f a, t))

/-- Both fail, both find nothing, or the second finds what `f` makes of what the first finds. -/
inductive SameReading? (f : α → β) (R : List Char → List Char → Prop) :
    Except Failure (Option (α × List Char)) → Except Failure (Option (β × List Char)) → Prop
  | error (e e' : Failure) : SameReading? f R (.error e) (.error e')
  | none : SameReading? f R (.ok none) (.ok none)
  | some (a : α) {s t : List Char} (h : R s t) :
    SameReading? f R (.ok (some (a, s))) (.ok (some (f a, t)))

theorem SameReading.bind {f : α → β} {δ : Type} {g : γ → δ} {r : Except Failure (α × List Char)}
    {r' : Except Failure (β × List Char)} (h : SameReading f R r r')
    {k : α × List Char → Except Failure (γ × List Char)}
    {k' : β × List Char → Except Failure (δ × List Char)}
    (hk : ∀ a s t, R s t → SameReading g S (k (a, s)) (k' (f a, t))) :
    SameReading g S (r >>= k) (r' >>= k') := by
  cases h with
  | error e e' => exact .error e e'
  | ok a h => exact hk a _ _ h

/-- Items that correspond are read in step, up to where there are no more. -/
theorem readMany_same {f : α → β} {item : OptReader α} {item' : OptReader β}
    (hitem : ∀ s t, R s t → SameReading? f R (item s) (item' t))
    (hshort : ∀ s, Yields (fun o => ∀ x ∈ o, Shortened s x.2) (item s))
    (hshort' : ∀ s, Yields (fun o => ∀ x ∈ o, Shortened s x.2) (item' s)) {s t : List Char}
    (hst : R s t) :
    SameReading (List.map f) (fun s t => R s t ∧ item s = .ok none) (readMany item s)
      (readMany item' t) := by
  induction hn : s.length using Nat.strongRecOn generalizing s t with
  | _ n ih =>
    have hsame := hitem s t hst
    rw [readMany_eq hshort, readMany_eq hshort']
    generalize hr : item s = r at hsame
    generalize hr' : item' t = r' at hsame
    cases hsame with
    | error e e' => exact .error e e'
    | none => exact .ok [] ⟨hst, hr⟩
    | some a hrest =>
      have hlt := (hshort s _ hr _ rfl).2
      have hmany := ih _ (hn ▸ hlt) hrest rfl
      simp only [bind, Except.bind, Option.map_some, Option.getD_some]
      generalize readMany item _ = m at hmany ⊢
      generalize readMany item' _ = m' at hmany ⊢
      cases hmany with
      | error e e' => exact .error e e'
      | ok as hend => exact .ok (a :: as) hend

theorem SameReading.readAs {α' β' : Type} {f : α → β} {g : α' → β'} {read : Reader α}
    {read' : Reader β} {s t : List Char} (h : SameReading f R (read s) (read' t)) {as : α → α'}
    {as' : β → β'} (has : ∀ a, as' (f a) = g (as a)) :
    SameReading g R (readAs read as s) (readAs read' as' t) := by
  refine h.bind fun a s t hst => ?_
  show SameReading g R (.ok (as a, s)) (.ok (as' (f a), t))
  rw [has a]
  exact .ok (as a) hst

end Readings

section Rules

variable {α : Type} {rule : Nat → Reader α} {place : α → Nat → α} {line : α → Nat}

/-- A reader of rules that stay on a line and take its number. -/
structure ReadsLine (rule : Nat → Reader α) (place : α → Nat → α) (line : α → Nat) : Prop where
  stays : StaysOnLine (rule 0)
  shortens : ∀ i, Shortens (rule i)
  numbered : ∀ i s, rule i s = (rule 0 s).map fun x => (place x.1 i, x.2)
  line_place : ∀ r i, line (place r i) = i
  place_place : ∀ r i j, place (place r i) j = place r j

theorem ReadsLine.line_eq (h : ReadsLine rule place line) {i : Nat} {s t : List Char} {r : α}
    (hread : rule i s = .ok (r, t)) : line r = i := by
  rw [h.numbered] at hread
  cases hbare : rule 0 s with
  | error e =>
    rw [hbare] at hread
    cases hread
  | ok x =>
    rw [hbare] at hread
    rw [← (Prod.mk.inj (Except.ok.inj hread)).1, h.line_place]

theorem readAround_line {α β γ : Type} {left : Reader α} (hleft : StaysOnLine left)
    {sign : Reader Unit} (hsign : StaysOnLine sign) {right : Reader β} (hright : StaysOnLine right)
    (rule : α → β → Nat → γ) (hshort : ∀ i, Shortens (readAround left sign right rule i))
    (place : γ → Nat → γ) (line : γ → Nat) (hrule : ∀ a b i j, place (rule a b i) j = rule a b j)
    (hline : ∀ r i, line (place r i) = i) (hplace : ∀ r i j, place (place r i) j = place r j) :
    ReadsLine (readAround left sign right rule) place line where
  stays := readAround_stays hleft hsign hright rule 0
  shortens := hshort
  numbered := by
    intro i s
    unfold readAround
    cases left s with
    | error e => rfl
    | ok x =>
      simp only [bind, Except.bind]
      cases sign x.2 with
      | error e => rfl
      | ok y =>
        simp only
        cases right y.2 with
        | error e => rfl
        | ok z => simp only [pure, Except.pure, Except.map, hrule]
  line_place := hline
  place_place := hplace

theorem readContextual_line :
    ReadsLine readContextual (fun r i => { r with line := i }) ContextualRule.line :=
  readAround_line readContext_stays (readSymbol_stays rfl)
    (staysOnLine_skipSpaces (readSeparated_stays rfl readPair?_stays)) ContextualRule.mk
    readContextual_shortens _ _ (fun _ _ _ _ => rfl) (fun _ _ => rfl) fun _ _ _ => rfl

theorem readReorder_line :
    ReadsLine readReorder (fun r i => { r with line := i }) ReorderRule.line :=
  readAround_line readPattern_stays readArrow_stays readPattern_stays ReorderRule.mk
    readReorder_shortens _ _ (fun _ _ _ _ => rfl) (fun _ _ => rfl) fun _ _ _ => rfl

theorem readSimple_line :
    ReadsLine readSimple (fun r i => { r with line := i }) SimpleRule.line :=
  readAround_line readElement_stays (readSymbol_stays rfl)
    (staysOnLine_skipSpaces readElement_stays) SimpleRule.mk readSimple_shortens _ _
    (fun _ _ _ _ => rfl) (fun _ _ => rfl) fun _ _ _ => rfl

theorem readLigature_line :
    ReadsLine readLigature (fun r i => { r with line := i }) LigatureRule.line :=
  readAround_line readElement_stays (readSymbol_stays rfl)
    (staysOnLine_skipSpaces (readSeparated_stays rfl readElement?_stays)) LigatureRule.mk
    readLigature_shortens _ _ (fun _ _ _ _ => rfl) (fun _ _ => rfl) fun _ _ _ => rfl

theorem readOneToMany_line :
    ReadsLine readOneToMany (fun r i => { r with line := i }) OneToManyRule.line :=
  readAround_line readElement_stays (readSymbol_stays rfl) readPattern_stays
    OneToManyRule.mk readOneToMany_shortens _ _ (fun _ _ _ _ => rfl) (fun _ _ => rfl)
    fun _ _ _ => rfl

end Rules

section Correspondence

/-- The file with the line of each rule changed by `f`. -/
def RuleFile.mapLines (f : Nat → Nat) (file : RuleFile) : RuleFile where
  classes := file.classes
  contextual := file.contextual.map fun r => { r with line := f r.line }
  reorder := file.reorder.map fun r => { r with line := f r.line }
  simple := file.simple.map fun r => { r with line := f r.line }
  ligature := file.ligature.map fun r => { r with line := f r.line }
  oneToMany := file.oneToMany.map fun r => { r with line := f r.line }

theorem RuleFile.mapLines_append (f : Nat → Nat) (g h : RuleFile) :
    (g.append h).mapLines f = (g.mapLines f).append (h.mapLines f) := by
  simp [RuleFile.mapLines, RuleFile.append]

/-- Places that correspond in two texts of `n` and `n'` lines: `On` where the rest of a line has to
be read, `At` where blanks may be skipped. The lines of corresponding places are related by `f`. -/
structure Correspondence (n n' : Nat) (f : Nat → Nat) (On At : List Char → List Char → Prop) :
    Prop where
  at_of_on : ∀ {s t}, On s t → At s t
  blanks : ∀ {s t}, At s t →
    On (skipBlanks s) (skipBlanks t) ∧ (skipBlanks s).head? = (skipBlanks t).head?
  inline : ∀ {α : Type} {read : Reader α} {s t}, StaysOnLine read → LeavesEnd read → On s t →
    SameReading id On (read s) (read t)
  ended : ∀ {s t}, On s t → SameReading id At (readEnd s) (readEnd t)
  tail : ∀ {c s t}, isLineChar c = true → On (c :: s) (c :: t) → On s t
  line : ∀ {s t}, On s t → lineOf n' t = f (lineOf n s)

namespace Correspondence

variable {n n' : Nat} {f : Nat → Nat} {On At : List Char → List Char → Prop}
  (h : Correspondence n n' f On At) {s t : List Char}

include h

theorem readToEnd_same {α β : Type} {g : α → β} {read : Reader α} {read' : Reader β}
    (hread : SameReading g On (read s) (read' t)) :
    SameReading g At (readToEnd read s) (readToEnd read' t) := by
  refine hread.bind fun a s t hst => ?_
  exact (h.ended hst).bind fun _ _ _ hat => .ok a hat

variable {α : Type} {rule : Nat → Reader α} {place : α → Nat → α} {line : α → Nat}

theorem rule_same (hrule : ReadsLine rule place line) (hst : On s t) :
    SameReading (fun r => place r (f (line r))) On (inText rule n s) (inText rule n' t) := by
  have hbare := h.inline hrule.stays (hrule.shortens 0).leaves hst
  rw [inText, inText, hrule.numbered _ s, hrule.numbered _ t, h.line hst]
  generalize rule 0 s = r at hbare ⊢
  generalize rule 0 t = r' at hbare ⊢
  cases hbare with
  | error e e' => exact .error e e'
  | ok a hst' =>
    have hplace : place a (f (lineOf n s)) =
        place (place a (lineOf n s)) (f (line (place a (lineOf n s)))) := by
      rw [hrule.line_place, hrule.place_place]
    simp only [Except.map, id, hplace]
    exact .ok (place a (lineOf n s)) hst'

theorem readBlockRule?_same (hrule : ReadsLine rule place line) (hst : At s t) :
    SameReading? (fun r => place r (f (line r))) At (readBlockRule? (inText rule n) s)
      (readBlockRule? (inText rule n') t) := by
  obtain ⟨hon, hhead⟩ := h.blanks hst
  by_cases hclosed : (skipBlanks s).head? = some '\x7d'
  · rw [readBlockRule?_of_closed hclosed, readBlockRule?_of_closed (hhead ▸ hclosed)]
    exact .none
  · rw [readBlockRule?_of_open hclosed, readBlockRule?_of_open (hhead ▸ hclosed)]
    have hrule := h.readToEnd_same (h.rule_same hrule hon)
    generalize readToEnd (inText rule n) (skipBlanks s) = r at hrule ⊢
    generalize readToEnd (inText rule n') (skipBlanks t) = r' at hrule ⊢
    cases hrule with
    | error e e' => exact .error e e'
    | ok a hst => exact .some a hst

theorem readBlock_same (hrule : ReadsLine rule place line) (hst : On s t) :
    SameReading (List.map fun r => place r (f (line r))) At (readBlock (inText rule n) s)
      (readBlock (inText rule n') t) := by
  have hopen : Shortens (readSymbol "\x7b") := readSymbol_shortened (by decide)
  refine (h.inline (readSymbol_stays rfl) hopen.leaves hst).bind fun _ s t hst => ?_
  have hitem : ∀ s t, At s t → SameReading? (fun r => place r (f (line r))) At
      (readBlockRule? (inText rule n) s) (readBlockRule? (inText rule n') t) :=
    fun s t hst => h.readBlockRule?_same hrule hst
  refine (readMany_same hitem (readBlockRule?_shortens (inText_shortens hrule.shortens n))
    (readBlockRule?_shortens (inText_shortens hrule.shortens n')) (h.at_of_on hst)).bind
    fun rules s t hend => ?_
  obtain ⟨hat, hnone⟩ := hend
  obtain ⟨hon, hhead⟩ := h.blanks hat
  -- the block has been read to the brace that closes it
  have hclosed : ∃ u, skipBlanks s = '\x7d' :: u := by
    unfold readBlockRule? at hnone
    split at hnone
    next u hu => exact ⟨u, hu⟩
    next =>
      cases hrest : readToEnd (inText rule n) (skipBlanks s) with
      | error e => rw [hrest] at hnone; cases hnone
      | ok x => rw [hrest] at hnone; cases hnone
  obtain ⟨u, hu⟩ := hclosed
  rw [hu, List.head?_cons] at hhead
  obtain ⟨v, hv⟩ := List.head?_eq_some_iff.mp hhead.symm
  rw [hu, hv] at hon
  show SameReading _ At (.ok (rules, (skipBlanks s).drop 1)) (.ok (_, (skipBlanks t).drop 1))
  rw [hu, hv]
  exact .ok rules (h.at_of_on (h.tail rfl hon))

theorem directive_same (d : Directive) (hst : On s t) :
    SameReading (RuleFile.mapLines f) At (d.read n s) (d.read n' t) := by
  unfold Directive.read
  cases d with
  | glyphClass =>
    have hdefinition := h.readToEnd_same (h.inline readDefinition_stays readDefinition_leaves hst)
    exact hdefinition.readAs fun c => rfl
  | contextual => exact (h.readBlock_same readContextual_line hst).readAs fun rules => rfl
  | reorder => exact (h.readBlock_same readReorder_line hst).readAs fun rules => rfl
  | simple => exact (h.readBlock_same readSimple_line hst).readAs fun rules => rfl
  | ligature => exact (h.readBlock_same readLigature_line hst).readAs fun rules => rfl
  | oneToMany => exact (h.readBlock_same readOneToMany_line hst).readAs fun rules => rfl

theorem readDirective_same (hst : On s t) (hhead : s.head? = t.head?) :
    SameReading (RuleFile.mapLines f) At (readDirective n s) (readDirective n' t) := by
  have hwords : directives.all (fun w => w.1.toList.all isLineChar) = true := rfl
  by_cases hat : s.head? = some '@'
  · obtain ⟨u, rfl⟩ := List.head?_eq_some_iff.mp hat
    obtain ⟨v, rfl⟩ := List.head?_eq_some_iff.mp hhead.symm
    have hname := h.inline (readKeyword_stays hwords .directiveName) (readKeyword_leaves _ _)
      (h.tail rfl hst)
    exact hname.bind fun d s t hst => h.directive_same d hst
  · rw [readDirective_of_other hat, readDirective_of_other (hhead ▸ hat)]
    exact .error _ _

/-- Texts that correspond are read as the same file up to lines, or both are not read. -/
theorem readParts_same (hst : At s t) :
    (readParts n' t).toOption = (readParts n s).toOption.map (RuleFile.mapLines f) := by
  induction hn : s.length using Nat.strongRecOn generalizing s t with
  | _ k ih =>
    obtain ⟨hon, hhead⟩ := h.blanks hst
    by_cases hnil : skipBlanks s = []
    · rw [hnil, List.head?_nil] at hhead
      rw [readParts_of_nil hnil, readParts_of_nil (List.head?_eq_none_iff.mp hhead.symm)]
      rfl
    · have hnil' : skipBlanks t ≠ [] := by
        intro hnil'
        rw [hnil', List.head?_nil] at hhead
        exact hnil (List.head?_eq_none_iff.mp hhead)
      have hdirective := h.readDirective_same hon hhead
      have hshort := readDirective_shortens n (skipBlanks s)
      rw [readParts_of_ne_nil hnil, readParts_of_ne_nil hnil']
      generalize readDirective n (skipBlanks s) = r at hdirective hshort ⊢
      generalize readDirective n' (skipBlanks t) = r' at hdirective ⊢
      cases hdirective with
      | error e e' => rfl
      | ok part hrest =>
        have hlt := (shortened_of_suffix (skipBlanks_suffix s) (hshort _ rfl)).2
        have hparts := ih _ (hn ▸ hlt) hrest rfl
        simp only [bind, Except.bind]
        generalize readParts n _ = p at hparts ⊢
        generalize readParts n' _ = p' at hparts ⊢
        cases p with
        | error e =>
          cases p' with
          | error e' => rfl
          | ok file' => cases hparts
        | ok file =>
          cases p' with
          | error e' => cases hparts
          | ok file' =>
            have hfile : file' = file.mapLines f := Option.some.inj hparts
            rw [hfile]
            exact congrArg some (RuleFile.mapLines_append f part file).symm

end Correspondence

end Correspondence

end Metamorphosis
