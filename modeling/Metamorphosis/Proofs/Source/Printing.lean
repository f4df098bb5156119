import Metamorphosis.Proofs.Source.Counted
import Metamorphosis.Proofs.Source.RuleText

namespace Metamorphosis

section Lines

/-- Lines as one text, each with a break after it. -/
def unlines (lines : List String) : List Char :=
  lines.flatMap fun l => l.toList ++ ['\n']

theorem toList_print (f : RuleFile) : f.print.toList = unlines f.lines := by
  simp [RuleFile.print, unlines, String.toList_join, List.flatMap_map]

theorem unlines_cons (l : String) (lines : List String) (rest : List Char) :
    unlines (l :: lines) ++ rest = l.toList ++ '\n' :: (unlines lines ++ rest) := by
  simp [unlines]

theorem count_line {l : String} (hl : OneLine l) (rest : List Char) :
    (l.toList ++ '\n' :: rest).count '\n' = rest.count '\n' + 1 := by
  rw [List.count_append, List.count_cons_self, List.count_eq_zero_of_not_mem hl, Nat.zero_add]

theorem count_unlines {lines : List String} (h : ∀ l ∈ lines, OneLine l) (rest : List Char) :
    (unlines lines ++ rest).count '\n' = lines.length + rest.count '\n' := by
  induction lines with
  | nil => exact (Nat.zero_add _).symm
  | cons l lines ih =>
    obtain ⟨hl, hlines⟩ := List.forall_mem_cons.mp h
    rw [unlines_cons, count_line hl, ih hlines, List.length_cons]
    omega

end Lines

section Blocks

variable {α : Type} {rule : Nat → Reader α} {text : α → String} {place : α → Nat → α}
  {P : α → Prop}

/-- Rules with `P` are read back from their texts, each of which takes a line of a block. -/
structure ReadsBack (rule : Nat → Reader α) (text : α → String) (place : α → Nat → α)
    (P : α → Prop) : Prop where
  head : ∀ {r}, P r → ∃ c s, (text r).toList = c :: s ∧ isElementChar c = true
  oneLine : ∀ {r}, P r → OneLine (text r)
  read : ∀ {r}, P r → ∀ line rest, rule line ((text r).toList ++ '\n' :: rest) =
    .ok (place r line, '\n' :: rest)

theorem readBlockRule?_text (h : ReadsBack rule text place P) {r : α} (hr : P r) (n : Nat)
    (rest : List Char) :
    readBlockRule? (inText rule n) ((text r).toList ++ '\n' :: rest) =
      .ok (some (place r (lineOf n ((text r).toList ++ '\n' :: rest)), rest)) := by
  obtain ⟨c, s, hs, hc⟩ := h.head hr
  have hblank : isBlank c = false := by
    rw [← Bool.not_eq_true]
    intro hblank
    rw [isElementChar_of_isBlank hblank] at hc
    cases hc
  have hcomment : c ≠ '#' := by
    rintro rfl
    cases hc
  have hskip : skipBlanks ((text r).toList ++ '\n' :: rest) = (text r).toList ++ '\n' :: rest := by
    rw [hs]
    exact skipBlanks_of_head hblank hcomment _
  have hopen : (skipBlanks ((text r).toList ++ '\n' :: rest)).head? ≠ some '\x7d' := by
    rw [hskip, hs]
    intro hclosed
    rw [Option.some.inj hclosed] at hc
    cases hc
  have hend : readEnd ('\n' :: rest) = .ok ((), rest) := rfl
  rw [readBlockRule?_of_open hopen, hskip, readToEnd, inText, h.read hr]
  simp only [bind, Except.bind, hend]
  rfl

theorem readMany_rules (h : ReadsBack rule text place P) {rs : List α} (hrs : ∀ r ∈ rs, P r)
    {n k : Nat} {rest : List Char} (hn : n = k + (rs.length + rest.count '\n')) :
    readMany (readBlockRule? (inText rule n)) (unlines (rs.map text) ++ '\x7d' :: rest) =
      .ok (rs.mapIdx fun i r => place r (k + i), '\x7d' :: rest) := by
  induction rs generalizing k with
  | nil =>
    have hskip : skipBlanks ('\x7d' :: rest) = '\x7d' :: rest :=
      skipBlanks_of_head rfl (by decide) rest
    exact readMany_of_none (readBlockRule?_of_closed (congrArg List.head? hskip))
  | cons r rs ih =>
    obtain ⟨hr, hrs⟩ := List.forall_mem_cons.mp hrs
    have htexts : ∀ l ∈ rs.map text, OneLine l := by
      intro l hl
      obtain ⟨r, hr, rfl⟩ := List.mem_map.mp hl
      exact h.oneLine (hrs r hr)
    have hcount : (unlines (rs.map text) ++ '\x7d' :: rest).count '\n' =
        rs.length + rest.count '\n' := by
      rw [count_unlines htexts, List.length_map, List.count_cons_of_ne (by decide)]
    have hline : lineOf n ((text r).toList ++ '\n' :: (unlines (rs.map text) ++ '\x7d' :: rest)) =
        k := by
      rw [lineOf, count_line (h.oneLine hr), hcount]
      rw [List.length_cons] at hn
      omega
    have hnext : n = k + 1 + (rs.length + rest.count '\n') := by
      rw [List.length_cons] at hn
      omega
    have hlt : (unlines (rs.map text) ++ '\x7d' :: rest).length <
        ((text r).toList ++ '\n' :: (unlines (rs.map text) ++ '\x7d' :: rest)).length := by
      simp only [List.length_append, List.length_cons]
      omega
    rw [List.map_cons, unlines_cons, readMany_of_some (readBlockRule?_text h hr n _) hlt,
      ih hrs hnext, hline, List.mapIdx_cons]
    simp only [Except.map, Nat.add_zero, Nat.add_assoc, Nat.add_comm 1]

theorem readBlock_rules (h : ReadsBack rule text place P) {rs : List α} (hne : rs ≠ [])
    (hrs : ∀ r ∈ rs, P r) {n k : Nat} {rest : List Char}
    (hn : n = k + (rs.length + rest.count '\n')) :
    readBlock (inText rule n)
        (" \x7b".toList ++ '\n' :: (unlines (rs.map text) ++ '\x7d' :: rest)) =
      .ok (rs.mapIdx fun i r => place r (k + i), rest) := by
  have hbrace : ∀ s, readSymbol "\x7b" (" \x7b".toList ++ s) = .ok ((), s) := fun s => rfl
  have hbreak : ∀ s, readBlockRule? (inText rule n) ('\n' :: s) =
      readBlockRule? (inText rule n) s := by
    intro s
    unfold readBlockRule?
    rw [skipBlanks_cons rfl]
  have hrules := readMany_rules h hrs hn
  have hskip : skipBlanks ('\x7d' :: rest) = '\x7d' :: rest :=
    skipBlanks_of_head rfl (by decide) rest
  -- the break after the brace belongs to the first rule
  have hopened : readMany (readBlockRule? (inText rule n))
      ('\n' :: (unlines (rs.map text) ++ '\x7d' :: rest)) =
        .ok (rs.mapIdx fun i r => place r (k + i), '\x7d' :: rest) := by
    obtain ⟨r, rs, rfl⟩ := List.exists_cons_of_ne_nil hne
    rw [List.map_cons, unlines_cons] at hrules ⊢
    have hr := readBlockRule?_text h (hrs r List.mem_cons_self) n
      (unlines (rs.map text) ++ '\x7d' :: rest)
    rw [readMany_of_some hr (by simp only [List.length_append, List.length_cons]; omega)] at hrules
    rw [readMany_of_some ((hbreak _).trans hr)
      (by simp only [List.length_append, List.length_cons]; omega), hrules]
  unfold readBlock
  simp only [hbrace, bind, Except.bind, hopened, hskip]
  rfl

theorem length_blockLines (keyword : String) (rules : List String) :
    (blockLines keyword rules).length = blockHeight rules.length := by
  cases rules with
  | nil => rfl
  | cons t ts => simp [blockLines, blockHeight]

theorem blockLines_oneLine {keyword : String} (hkeyword : OneLine keyword) {rules : List String}
    (h : ∀ t ∈ rules, OneLine t) : ∀ l ∈ blockLines keyword rules, OneLine l := by
  have hopen : OneLine ("@" ++ keyword ++ " \x7b") := by
    simp only [oneLine_append]
    exact ⟨⟨by decide, hkeyword⟩, by decide⟩
  have hclose : OneLine "\x7d" := by decide
  intro l hl
  unfold blockLines at hl
  split at hl
  next => cases hl
  next =>
    simp only [List.cons_append, List.mem_cons, List.mem_append, List.not_mem_nil, or_false] at hl
    rcases hl with rfl | hl | rfl
    · exact hopen
    · exact h l hl
    · exact hclose

theorem blockHeight_of_ne {rs : List α} (h : rs ≠ []) :
    blockHeight rs.length = rs.length + 2 :=
  if_neg (mt List.length_eq_zero_iff.mp h)

theorem count_block (h : ReadsBack rule text place P) {rs : List α} (hrs : ∀ r ∈ rs, P r)
    {keyword : String} (hkeyword : OneLine keyword) (rest : List Char) :
    (unlines (blockLines keyword (rs.map text)) ++ rest).count '\n' =
      blockHeight rs.length + rest.count '\n' := by
  have htexts : ∀ t ∈ rs.map text, OneLine t := by
    intro t ht
    obtain ⟨r, hr, rfl⟩ := List.mem_map.mp ht
    exact h.oneLine (hrs r hr)
  rw [count_unlines (blockLines_oneLine hkeyword htexts), length_blockLines, List.length_map]

/-- A block that begins on line `k`, in front of more text. No rules make no block. -/
theorem readParts_block (h : ReadsBack rule text place P) {rs : List α} (hrs : ∀ r ∈ rs, P r)
    {d : Directive} {keyword : String} (hline : OneLine keyword) (part : List α → RuleFile)
    {n k : Nat} {rest : List Char}
    (hkeyword : ∀ s, readKeyword directives .directiveName (keyword.toList ++ s) = .ok (d, s))
    (hread : d.read n = readAs (readBlock (inText rule n)) part) (hempty : part [] = {})
    (hn : n = k + (unlines (blockLines keyword (rs.map text)) ++ rest).count '\n') :
    readParts n (unlines (blockLines keyword (rs.map text)) ++ rest) =
        (readParts n rest).map (part (rs.mapIdx fun i r => place r (k + 1 + i))).append ∧
      n = k + blockHeight rs.length + rest.count '\n' := by
  rw [count_block h hrs hline, ← Nat.add_assoc] at hn
  refine ⟨?_, hn⟩
  by_cases hne : rs = []
  · subst hne
    rw [List.mapIdx_nil, hempty]
    show readParts n rest = _
    cases readParts n rest <;> rfl
  · have hlines : unlines (blockLines keyword (rs.map text)) ++ rest =
        '@' :: (keyword.toList ++ (" \x7b".toList ++
          '\n' :: (unlines (rs.map text) ++ '\x7d' :: '\n' :: rest))) := by
      simp [blockLines, hne, unlines]
    have hskip : ∀ s, skipBlanks ('@' :: s) = '@' :: s :=
      fun s => skipBlanks_of_head rfl (by decide) s
    have hcount : n = k + 1 + (rs.length + ('\n' :: rest).count '\n') := by
      rw [blockHeight_of_ne hne] at hn
      rw [List.count_cons_self]
      omega
    have hblock := readBlock_rules h hne hrs hcount
    have hrest : readParts n ('\n' :: rest) = readParts n rest :=
      readParts_congr (skipBlanks_cons rfl rest)
    rw [hlines, readParts_of_ne_nil (by rw [hskip]; exact List.cons_ne_nil _ _), hskip, readDirective,
      hkeyword]
    simp only [hread, readAs, hblock, bind, Except.bind, pure, Except.pure, hrest]

end Blocks

section Kinds

theorem Element.Named.oneLine {e : Element} (h : e.Named) : OneLine e.text := by
  cases e with
  | glyph name => exact IsName.oneLine h
  | classRef name => exact oneLine_append.mpr ⟨by decide, IsName.oneLine h⟩

theorem oneLine_elements {mark : String} (hmark : OneLine mark) {es : List Element}
    (h : ∀ e ∈ es, e.Named) : OneLine (mark.intercalate (es.map Element.text)) := by
  apply oneLine_intercalate hmark
  intro t ht
  obtain ⟨e, he, rfl⟩ := List.mem_map.mp ht
  exact (h e he).oneLine

theorem oneLine_spaced {es : List Element} (h : ∀ e ∈ es, e.Named) :
    OneLine (spaced (es.map Element.text)) :=
  oneLine_elements (by decide) h

theorem Context.Printable.oneLine {c : Context Element} (h : c.Printable) :
    OneLine (c.text Element.text) := by
  cases c with
  | after pattern => exact oneLine_append.mpr ⟨by decide, oneLine_spaced h.2⟩
  | before pattern => exact oneLine_append.mpr ⟨by decide, oneLine_spaced h.2⟩
  | when pattern => exact oneLine_append.mpr ⟨by decide, oneLine_spaced h.2⟩
  | between first second =>
    simp only [Context.text, oneLine_append]
    exact ⟨⟨⟨by decide, oneLine_spaced h.1.2⟩, by decide⟩, oneLine_spaced h.2.1.2⟩

/-- What a text begins with, a longer one does too. -/
theorem head_append {text : String} {P : Char → Prop} (more : String)
    (h : ∃ c s, text.toList = c :: s ∧ P c) : ∃ c s, (text ++ more).toList = c :: s ∧ P c := by
  obtain ⟨c, s, hs, hc⟩ := h
  exact ⟨c, s ++ more.toList, by rw [String.toList_append, hs, List.cons_append], hc⟩

theorem Context.text_head (c : Context Element) :
    ∃ d s, (c.text Element.text).toList = d :: s ∧ isElementChar d = true := by
  cases c with
  | after pattern => exact ⟨'a', _, String.toList_append, rfl⟩
  | before pattern => exact ⟨'b', _, String.toList_append, rfl⟩
  | when pattern => exact ⟨'w', _, String.toList_append, rfl⟩
  | between first second =>
    exact head_append _ (head_append _ (head_append _ ⟨'b', "etween ".toList, rfl, rfl⟩))

theorem spaced_head {es : List Element} (hne : es ≠ []) (h : ∀ e ∈ es, e.Named) :
    ∃ c s, (spaced (es.map Element.text)).toList = c :: s ∧ isElementChar c = true := by
  obtain ⟨e, es, rfl⟩ := List.exists_cons_of_ne_nil hne
  obtain ⟨c, s, hs, hc⟩ := Element.text_head (h e List.mem_cons_self)
  have hspaced := toList_intercalate_cons " " e.text (es.map Element.text)
  rw [hs, List.cons_append] at hspaced
  exact ⟨c, _, hspaced, hc⟩

theorem contextual_readsBack : ReadsBack readContextual ContextualRule.text
    (fun r i => { r with line := i }) (fun r => r.Printable ∧ r.Plain) where
  head {r} _ := head_append _ (head_append _ r.context.text_head)
  oneLine {r} hr := by
    have h := hr.1
    have hpairs : ∀ t ∈ r.pairs.map Pair.text, OneLine t := by
      intro t ht
      obtain ⟨p, hp, rfl⟩ := List.mem_map.mp ht
      simp only [Pair.text, oneLine_append]
      exact ⟨⟨(h.2.2 p hp).1.oneLine, by decide⟩, (h.2.2 p hp).2.oneLine⟩
    simp only [ContextualRule.text, oneLine_append]
    exact ⟨⟨h.1.oneLine, by decide⟩, oneLine_intercalate (by decide) hpairs⟩
  read h := readContextual_text h.1 h.2

theorem reorder_readsBack : ReadsBack readReorder ReorderRule.text
    (fun r i => { r with line := i }) ReorderRule.Printable where
  head h := head_append _ (head_append _ (spaced_head h.1.1 h.1.2))
  oneLine h := by
    simp only [ReorderRule.text, oneLine_append]
    exact ⟨⟨oneLine_spaced h.1.2, by decide⟩, oneLine_spaced h.2.2⟩
  read h := readReorder_text h

theorem simple_readsBack : ReadsBack readSimple SimpleRule.text
    (fun r i => { r with line := i }) SimpleRule.Printable where
  head h := head_append _ (head_append _ (Element.text_head h.1))
  oneLine h := by
    simp only [SimpleRule.text, oneLine_append]
    exact ⟨⟨h.1.oneLine, by decide⟩, h.2.oneLine⟩
  read h := readSimple_text h

theorem ligature_readsBack : ReadsBack readLigature LigatureRule.text
    (fun r i => { r with line := i }) LigatureRule.Printable where
  head h := head_append _ (head_append _ (Element.text_head h.1))
  oneLine h := by
    simp only [LigatureRule.text, oneLine_append]
    exact ⟨⟨h.1.oneLine, by decide⟩, oneLine_elements (by decide) h.2.2⟩
  read h := readLigature_text h

theorem oneToMany_readsBack : ReadsBack readOneToMany OneToManyRule.text
    (fun r i => { r with line := i }) OneToManyRule.Printable where
  head h := head_append _ (head_append _ (Element.text_head h.1))
  oneLine h := by
    simp only [OneToManyRule.text, oneLine_append]
    exact ⟨⟨h.1.oneLine, by decide⟩, oneLine_spaced h.2.2⟩
  read h := readOneToMany_text h

end Kinds

section Classes

theorem skipSpaces_name {g : Glyph} (h : IsName g) (rest : List Char) :
    skipSpaces (g.toList ++ rest) = g.toList ++ rest := by
  have hnamed : (Element.glyph g).Named := h
  exact skipSpaces_text hnamed rest

theorem readNames_spaced {glyphs : List Glyph} (hne : glyphs ≠ []) (h : ∀ g ∈ glyphs, IsName g)
    (rest : List Char) :
    readNames ((spaced glyphs).toList ++ '\n' :: rest) = .ok (glyphs, '\n' :: rest) := by
  have hread : ∀ (g : Glyph) (rest : List Char), IsName g → AfterName rest →
      (pure (readName? (skipSpaces ((id g).toList ++ rest))) : Except Failure _) =
        .ok (some (g, rest)) := by
    intro g rest hg hrest
    rw [id, skipSpaces_name hg, readName?_append hg hrest]
    rfl
  have hspaced : readNames ((spaced (glyphs.map id)).toList ++ '\n' :: rest) =
      .ok (glyphs, '\n' :: rest) :=
    readSome_spaced hread (fun s => rfl) hne h (afterName_cons rfl rest) rfl
  rwa [List.map_id] at hspaced

/-- Printed members are not bracketed, as the first of them is a name. -/
theorem readMembers_spaced {glyphs : List Glyph} (hne : glyphs ≠ []) (h : ∀ g ∈ glyphs, IsName g)
    (rest : List Char) :
    readMembers (' ' :: ((spaced glyphs).toList ++ '\n' :: rest)) =
      .ok (glyphs, '\n' :: rest) := by
  have hspace : ∀ s, readNames (' ' :: s) = readNames s := fun s => rfl
  have hbracket : afterWord? "[".toList
      (skipSpaces (' ' :: ((spaced glyphs).toList ++ '\n' :: rest))) = none := by
    obtain ⟨g, gs, rfl⟩ := List.exists_cons_of_ne_nil hne
    have hg : IsName g := h g List.mem_cons_self
    obtain ⟨d, s, hs, hd⟩ := IsName.head hg
    have hd' : d ≠ '[' := by
      rintro rfl
      cases hd
    rw [spaced, toList_intercalate_cons, List.append_assoc, skipSpaces_cons rfl,
      skipSpaces_name hg, hs]
    simp [afterWord?, hd'.symm]
  rw [readMembers, hbracket]
  exact (hspace _).trans (readNames_spaced hne h rest)

theorem readDefinition_text {c : GlyphClass} (h : c.Named) (hne : c.glyphs ≠ []) (rest : List Char) :
    readDefinition (' ' :: (c.name.toList ++ (" = ".toList ++
      ((spaced c.glyphs).toList ++ '\n' :: rest)))) = .ok (c, '\n' :: rest) := by
  have hname : readName (skipSpaces (' ' :: (c.name.toList ++ (" = ".toList ++
      ((spaced c.glyphs).toList ++ '\n' :: rest))))) =
        .ok (c.name, " = ".toList ++ ((spaced c.glyphs).toList ++ '\n' :: rest)) := by
    rw [skipSpaces_cons rfl, skipSpaces_name h.1]
    exact readName_append h.1 (afterName_cons rfl _)
  have hsign : ∀ s, readSymbol "=" (" = ".toList ++ s) = .ok ((), ' ' :: s) := fun s => rfl
  unfold readDefinition
  simp only [hname, bind, Except.bind, hsign, readMembers_spaced hne h.2]
  rfl

theorem definition_oneLine {c : GlyphClass} (h : c.Named) : OneLine c.definition := by
  simp only [GlyphClass.definition, oneLine_append]
  exact ⟨⟨⟨by decide, h.1.oneLine⟩, by decide⟩,
    oneLine_intercalate (by decide) fun g hg => (h.2 g hg).oneLine⟩

theorem readParts_classes {cs : List GlyphClass} (h : ∀ c ∈ cs, c.Named ∧ c.glyphs ≠ []) (n : Nat)
    (rest : List Char) :
    readParts n (unlines (cs.map GlyphClass.definition) ++ rest) =
      (readParts n rest).map (RuleFile.append { classes := cs }) := by
  induction cs with
  | nil =>
    show readParts n rest = _
    cases readParts n rest <;> rfl
  | cons c cs ih =>
    obtain ⟨hc, hcs⟩ := List.forall_mem_cons.mp h
    have htext : ∀ s, c.definition.toList ++ '\n' :: s =
        "@class".toList ++ ' ' :: (c.name.toList ++ (" = ".toList ++
          ((spaced c.glyphs).toList ++ '\n' :: s))) := by
      intro s
      simp [GlyphClass.definition]
    have hskip : ∀ s, skipBlanks ("@class".toList ++ s) = "@class".toList ++ s :=
      fun s => skipBlanks_of_head rfl (by decide) _
    have hdirective : ∀ s, readDirective n ("@class".toList ++ s) =
        readAs (readToEnd readDefinition) (fun c => { classes := [c] }) s := fun s => rfl
    have hend : ∀ s, readEnd ('\n' :: s) = .ok ((), s) := fun s => rfl
    rw [List.map_cons, unlines_cons, htext,
      readParts_of_ne_nil (by rw [hskip]; exact List.cons_ne_nil _ _), hskip, hdirective]
    simp only [readAs, readToEnd, readDefinition_text hc.1 hc.2, bind, Except.bind, hend, pure,
      Except.pure, ih hcs]
    cases readParts n rest <;> rfl

end Classes

section Files

/-- The file can be written so that it can be read. -/
def RuleFile.Printable (f : RuleFile) : Prop :=
  (∀ c ∈ f.classes, c.Named ∧ c.glyphs ≠ []) ∧ (∀ r ∈ f.contextual, r.Printable) ∧
    (∀ r ∈ f.reorder, r.Printable) ∧ (∀ r ∈ f.simple, r.Printable) ∧
    (∀ r ∈ f.ligature, r.Printable) ∧ ∀ r ∈ f.oneToMany, r.Printable

instance : DecidablePred RuleFile.Printable := fun f =>
  have : DecidablePred fun c : GlyphClass => c.Named ∧ c.glyphs ≠ [] := fun c =>
    inferInstanceAs (Decidable ((IsName c.name ∧ ∀ g ∈ c.glyphs, IsName g) ∧ c.glyphs ≠ []))
  inferInstanceAs (Decidable ((∀ c ∈ f.classes, c.Named ∧ c.glyphs ≠ []) ∧
    (∀ r ∈ f.contextual, r.Printable) ∧ (∀ r ∈ f.reorder, r.Printable) ∧
    (∀ r ∈ f.simple, r.Printable) ∧ (∀ r ∈ f.ligature, r.Printable) ∧
    ∀ r ∈ f.oneToMany, r.Printable))

/-- No substitution of the file has a wildcard. -/
def RuleFile.Plain (f : RuleFile) : Prop :=
  ∀ r ∈ f.contextual, r.Plain

instance : DecidablePred RuleFile.Plain := fun f =>
  inferInstanceAs (Decidable (∀ r ∈ f.contextual, r.Plain))

theorem readRuleFile_print {f : RuleFile} (h : f.Printable) (hplain : f.Plain) :
    readRuleFile f.print.toList = .ok f.placed := by
  obtain ⟨hclasses, hcontextual, hreorder, hsimple, hligature, honeToMany⟩ := h
  have hdefinitions : ∀ l ∈ f.classes.map GlyphClass.definition, OneLine l := by
    intro l hl
    obtain ⟨c, hc, rfl⟩ := List.mem_map.mp hl
    exact definition_oneLine (hclasses c hc).1
  have htext : f.print.toList = unlines (f.classes.map GlyphClass.definition) ++
      (unlines (blockLines "contextual" (f.contextual.map ContextualRule.text)) ++
      (unlines (blockLines "reorder" (f.reorder.map ReorderRule.text)) ++
      (unlines (blockLines "simple" (f.simple.map SimpleRule.text)) ++
      (unlines (blockLines "ligature" (f.ligature.map LigatureRule.text)) ++
      (unlines (blockLines "one2many" (f.oneToMany.map OneToManyRule.text)) ++ []))))) := by
    simp [toList_print, RuleFile.lines, unlines]
  have hn : f.print.toList.count '\n' + 1 = f.classes.length + 1 +
      (unlines (blockLines "contextual" (f.contextual.map ContextualRule.text)) ++
      (unlines (blockLines "reorder" (f.reorder.map ReorderRule.text)) ++
      (unlines (blockLines "simple" (f.simple.map SimpleRule.text)) ++
      (unlines (blockLines "ligature" (f.ligature.map LigatureRule.text)) ++
      (unlines (blockLines "one2many" (f.oneToMany.map OneToManyRule.text)) ++ []))))).count '\n' := by
    rw [htext, count_unlines hdefinitions, List.length_map]
    omega
  rw [readRuleFile_eq]
  generalize f.print.toList.count '\n' + 1 = n at hn ⊢
  rw [htext, readParts_classes hclasses]
  obtain ⟨hread₁, hn⟩ := readParts_block contextual_readsBack
    (fun r hr => ⟨hcontextual r hr, hplain r hr⟩) (by decide)
    (fun rules => { contextual := rules }) (fun s => rfl) rfl rfl hn
  obtain ⟨hread₂, hn⟩ := readParts_block reorder_readsBack hreorder (by decide)
    (fun rules => { reorder := rules }) (fun s => rfl) rfl rfl hn
  obtain ⟨hread₃, hn⟩ := readParts_block simple_readsBack hsimple (by decide)
    (fun rules => { simple := rules }) (fun s => rfl) rfl rfl hn
  obtain ⟨hread₄, hn⟩ := readParts_block ligature_readsBack hligature (by decide)
    (fun rules => { ligature := rules }) (fun s => rfl) rfl rfl hn
  obtain ⟨hread₅, hn⟩ := readParts_block oneToMany_readsBack honeToMany (by decide)
    (fun rules => { oneToMany := rules }) (fun s => rfl) rfl rfl hn
  have hnil : readParts n [] = .ok {} := readParts_of_nil (by rw [skipBlanks_eq]; rfl)
  rw [hread₁, hread₂, hread₃, hread₄, hread₅, hnil]
  simp [Except.map, RuleFile.append, RuleFile.placed]

/-- The rules of a block stand on the lines below its first one. -/
theorem standing_block {α : Type} {text : α → String} {line : α → Nat} (place : α → Nat → α)
    (htext : ∀ r i, text (place r i) = text r) (hline : ∀ r i, line (place r i) = i) {rs : List α}
    {keyword : String} {lines pre : List String} {k : Nat}
    (hlines : pre ++ blockLines keyword (rs.map text) <+: lines) (hk : pre.length + 1 = k) :
    ∀ x ∈ (rs.mapIdx fun i r => place r (k + 1 + i)).map fun r => (text r, line r),
      ∃ i, x.2 = i + 1 ∧ lines[i]? = some x.1 := by
  intro x hx
  obtain ⟨r, hr, rfl⟩ := List.mem_map.mp hx
  obtain ⟨i, hi, rfl⟩ := List.mem_mapIdx.mp hr
  have hne : rs.map text ≠ [] := by
    intro hnil
    rw [List.map_eq_nil_iff.mp hnil] at hi
    cases hi
  have hblock : (blockLines keyword (rs.map text))[i + 1]? = some (text rs[i]) := by
    rw [blockLines, if_neg (by simpa using hne), List.cons_append, List.getElem?_cons_succ,
      List.getElem?_append_left (by simpa using hi), List.getElem?_map, List.getElem?_eq_getElem hi]
    rfl
  refine ⟨pre.length + (i + 1), ?_, ?_⟩
  · rw [hline]
    omega
  · have hpre : (pre ++ blockLines keyword (rs.map text))[pre.length + (i + 1)]? =
        some (text rs[i]) := by
      rw [List.getElem?_append_right (Nat.le_add_right _ _), Nat.add_sub_cancel_left, hblock]
    obtain ⟨hlt, -⟩ := List.getElem?_eq_some_iff.mp hpre
    obtain ⟨post, rfl⟩ := hlines
    rw [List.getElem?_append_left hlt, hpre, htext]

theorem placed_standing (f : RuleFile) :
    ∀ x ∈ f.placed.ruleTexts, ∃ i, x.2 = i + 1 ∧ f.lines[i]? = some x.1 := by
  intro x hx
  have h₅ : _ <+: f.lines := List.prefix_rfl
  have h₄ := (List.prefix_append _ _).trans h₅
  have h₃ := (List.prefix_append _ _).trans h₄
  have h₂ := (List.prefix_append _ _).trans h₃
  have h₁ := (List.prefix_append _ _).trans h₂
  simp only [RuleFile.ruleTexts, List.mem_append] at hx
  rcases hx with (((hx | hx) | hx) | hx) | hx
  · refine standing_block (fun (r : ContextualRule) i => { r with line := i }) (fun _ _ => rfl)
      (fun _ _ => rfl) h₁ ?_ x hx
    rw [List.length_map]
  · refine standing_block (fun (r : ReorderRule) i => { r with line := i }) (fun _ _ => rfl)
      (fun _ _ => rfl) h₂ ?_ x hx
    simp only [List.length_append, List.length_map, length_blockLines]
    omega
  · refine standing_block (fun (r : SimpleRule) i => { r with line := i }) (fun _ _ => rfl)
      (fun _ _ => rfl) h₃ ?_ x hx
    simp only [List.length_append, List.length_map, length_blockLines]
    omega
  · refine standing_block (fun (r : LigatureRule) i => { r with line := i }) (fun _ _ => rfl)
      (fun _ _ => rfl) h₄ ?_ x hx
    simp only [List.length_append, List.length_map, length_blockLines]
    omega
  · refine standing_block (fun (r : OneToManyRule) i => { r with line := i }) (fun _ _ => rfl)
      (fun _ _ => rfl) h₅ ?_ x hx
    simp only [List.length_append, List.length_map, length_blockLines]
    omega

end Files

section Wildcards

/-- The rule as its text tells it. -/
def ContextualRule.withoutWildcards (r : ContextualRule) : ContextualRule :=
  { r with pairs := r.pairs.map fun p => { p with wildcard := none } }

/-- The file as its print tells it. -/
def RuleFile.withoutWildcards (f : RuleFile) : RuleFile :=
  { f with contextual := f.contextual.map ContextualRule.withoutWildcards }

namespace ContextualRule

theorem text_withoutWildcards (r : ContextualRule) : r.withoutWildcards.text = r.text := by
  have htext : Pair.text ∘ (fun p : Pair => { p with wildcard := none }) = Pair.text := rfl
  simp only [text, withoutWildcards, List.map_map, htext]

theorem Printable.withoutWildcards {r : ContextualRule} (h : r.Printable) :
    r.withoutWildcards.Printable := by
  obtain ⟨hcontext, hne, hpairs⟩ := h
  refine ⟨hcontext, mt List.map_eq_nil_iff.mp hne, ?_⟩
  intro p hp
  obtain ⟨q, hq, rfl⟩ := List.mem_map.mp hp
  exact hpairs q hq

theorem withoutWildcards_plain (r : ContextualRule) : r.withoutWildcards.Plain := by
  intro p hp
  obtain ⟨q, _, rfl⟩ := List.mem_map.mp hp
  rfl

theorem withoutWildcards_of_plain {r : ContextualRule} (h : r.Plain) : r.withoutWildcards = r := by
  obtain ⟨context, pairs, line⟩ := r
  have hpairs : pairs.map (fun p : Pair => { p with wildcard := none }) = pairs := by
    refine (List.map_congr_left fun p hp => ?_).trans (List.map_id pairs)
    obtain ⟨target, replacement, wildcard⟩ := p
    obtain rfl : wildcard = none := h _ hp
    rfl
  rw [withoutWildcards, hpairs]

end ContextualRule

namespace RuleFile

variable {f : RuleFile}

theorem print_withoutWildcards (f : RuleFile) : f.withoutWildcards.print = f.print := by
  have htext : ContextualRule.text ∘ ContextualRule.withoutWildcards = ContextualRule.text :=
    funext ContextualRule.text_withoutWildcards
  simp only [print, lines, withoutWildcards, List.map_map, htext]

theorem Printable.withoutWildcards (h : f.Printable) : f.withoutWildcards.Printable := by
  refine ⟨h.1, ?_, h.2.2⟩
  intro r hr
  obtain ⟨q, hq, rfl⟩ := List.mem_map.mp hr
  exact (h.2.1 q hq).withoutWildcards

theorem withoutWildcards_plain (f : RuleFile) : f.withoutWildcards.Plain := by
  intro r hr
  obtain ⟨q, _, rfl⟩ := List.mem_map.mp hr
  exact q.withoutWildcards_plain

theorem withoutWildcards_of_plain (h : f.Plain) : f.withoutWildcards = f := by
  have hcontextual : f.contextual.map ContextualRule.withoutWildcards = f.contextual :=
    (List.map_congr_left fun r hr => ContextualRule.withoutWildcards_of_plain (h r hr)).trans
      (List.map_id _)
  rw [withoutWildcards, hcontextual]

/-- New lines leave the wildcards alone. -/
theorem placed_plain_iff : f.placed.Plain ↔ f.Plain := by
  constructor
  · intro h r hr
    obtain ⟨i, hi, rfl⟩ := List.getElem_of_mem hr
    have hmem : { f.contextual[i] with line := f.classes.length + 1 + 1 + i } ∈
        f.placed.contextual := List.mem_mapIdx.mpr ⟨i, hi, rfl⟩
    have hplain := h _ hmem
    exact hplain
  · intro h r hr
    obtain ⟨i, hi, rfl⟩ := List.mem_mapIdx.mp hr
    exact h f.contextual[i] (List.getElem_mem hi)

end RuleFile

end Wildcards

section Printing

/-- A printable file with usable names and no wildcards is loaded from its print. -/
theorem load_print {f : RuleFile} (h : f.Printable) (hplain : f.Plain)
    (hnames : f.placed.unusableName? = none) : RuleFile.load f.print = .ok f.placed := by
  rw [RuleFile.load, RuleFile.parse, readRuleFile_print h hplain]
  simp only [RuleFile.checkNames, hnames]
  rfl

/-- The print of a printable file is read as the file without its wildcards, and so as the file
itself if and only if it has none. The rules have the lines on which they are printed. -/
theorem parse_print {f : RuleFile} (h : f.Printable) :
    RuleFile.parse f.print = .ok f.withoutWildcards.placed ∧
      (RuleFile.parse f.print = .ok f.placed ↔ f.Plain) ∧
      ∀ x ∈ f.placed.ruleTexts, ∃ i, x.2 = i + 1 ∧ f.lines[i]? = some x.1 := by
  have hread : RuleFile.parse f.print = .ok f.withoutWildcards.placed := by
    rw [RuleFile.parse, ← f.print_withoutWildcards,
      readRuleFile_print h.withoutWildcards f.withoutWildcards_plain]
  refine ⟨hread, ⟨fun hsame => ?_, fun hplain => ?_⟩, placed_standing f⟩
  · have hplaced : f.withoutWildcards.placed = f.placed := Except.ok.inj (hread.symm.trans hsame)
    rw [← RuleFile.placed_plain_iff, ← hplaced, RuleFile.placed_plain_iff]
    exact f.withoutWildcards_plain
  · rw [hread, RuleFile.withoutWildcards_of_plain hplain]

/-- The word `and` is a glyph of a second side, and there are no reorder rules. -/
def mixedRules : RuleFile where
  classes := [⟨"vowels", ["a", "e.alt"]⟩, ⟨"_1", ["x"]⟩]
  contextual := [
    ⟨.between [.glyph "x", .classRef "vowels"] [.glyph "and"],
      [⟨.glyph "t", .glyph "t.init", none⟩, ⟨.classRef "_1", .glyph "y", none⟩], 0⟩,
    ⟨.when [.glyph "f", .glyph "and", .glyph "i"], [⟨.glyph "and", .glyph "f_i", none⟩], 0⟩]
  simple := [⟨.classRef "vowels", .classRef "vowels", 9⟩]
  ligature := [⟨.glyph "f_f_i", [.glyph "f", .glyph "f", .glyph "i"], 9⟩]
  oneToMany := [⟨.glyph "w", [.glyph "v", .glyph "v"], 9⟩, ⟨.glyph "w", [.glyph "u"], 9⟩]

theorem parse_print_mixed :
    mixedRules.Printable ∧ mixedRules.Plain ∧
      RuleFile.parse mixedRules.print = .ok mixedRules.placed ∧
      ∀ x ∈ mixedRules.placed.ruleTexts, ∃ i, x.2 = i + 1 ∧ mixedRules.lines[i]? = some x.1 := by
  obtain ⟨-, hsame, hlines⟩ := parse_print (f := mixedRules) (by decide)
  exact ⟨by decide, by decide, hsame.mpr (by decide), hlines⟩

/-- One substitution, with a wildcard. -/
def wildcardRules : RuleFile where
  contextual := [⟨.after [.glyph "a"], [⟨.glyph "b", .glyph "x", some (.appendSuffix ".alt")⟩], 2⟩]

/-- A file that is printable and placed as printed is read without its wildcard. -/
theorem parse_print_drops_wildcard :
    wildcardRules.Printable ∧ wildcardRules.placed = wildcardRules ∧
      wildcardRules.print = "@contextual \x7b\nafter a: b => x\n\x7d\n" ∧
      RuleFile.parse wildcardRules.print =
        .ok { contextual := [⟨.after [.glyph "a"], [⟨.glyph "b", .glyph "x", none⟩], 2⟩] } ∧
      RuleFile.parse wildcardRules.print ≠ .ok wildcardRules := by
  have hread : RuleFile.parse wildcardRules.print = .ok wildcardRules.withoutWildcards.placed := by
    rw [RuleFile.parse, ← wildcardRules.print_withoutWildcards,
      readRuleFile_print (by decide) wildcardRules.withoutWildcards_plain]
  refine ⟨by decide, by decide, by decide, hread, ?_⟩
  rw [hread]
  decide

end Printing

end Metamorphosis
