import Mathlib.Data.List.DropRight
import Metamorphosis.Proofs.Source.Correspondence
import Metamorphosis.Proofs.Source.Counted

namespace Metamorphosis

section Breaks

variable {s t u v : List Char}

theorem skipBlanks_skipBlanks (s : List Char) : skipBlanks (skipBlanks s) = skipBlanks s := by
  fun_induction skipBlanks s with
  | case1 s t hcomment hlt ih => exact ih
  | case2 s hcomment =>
    rw [skipBlanks_eq, List.dropWhile_idempotent, hcomment]
    rfl

theorem count_skipBlanks_le (s : List Char) : (skipBlanks s).count '\n' ≤ s.count '\n' :=
  (skipBlanks_suffix s).sublist.count_le '\n'

/-- A comment ends with the text or in front of a line break. -/
theorem afterComment?_ends (h : afterComment? s = some u) :
    u = [] ∨ (skipBlanks u).count '\n' < u.count '\n' := by
  have hbreak : ∀ t : List Char, (skipBlanks t).count '\n' < ('\n' :: t).count '\n' := by
    intro t
    rw [List.count_cons_self]
    exact Nat.lt_succ_of_le (count_skipBlanks_le t)
  unfold afterComment? at h
  split at h
  next r =>
    unfold commentEnd? at h
    split at h
    next t ht =>
      cases h
      rw [skipBlanks_cons rfl, skipBlanks_cons rfl, List.count_cons_of_ne (by decide)]
      exact .inr (hbreak t)
    next => cases h
    next hcr =>
      cases hend : r.dropWhile isLineChar with
      | nil =>
        rw [hend] at h
        exact .inl (Option.some.inj h).symm
      | cons c t =>
        have hc := List.head?_dropWhile_not isLineChar r
        rw [hend] at hc hcr h
        have hc : ¬c = '\n' → c = '\r' := by simpa [isLineChar] using hc
        by_cases hlf : c = '\n'
        · rw [← Option.some.inj h, hlf, skipBlanks_cons rfl]
          exact .inr (hbreak t)
        · exact absurd (by rw [hc hlf]) (hcr t)
  next => cases h

/-- What follows the end of a rule is nothing, the brace that closes its block, or on a line further
down. -/
theorem readBreak_ends (h : readBreak s = .ok ((), v)) :
    v = [] ∨ v.head? = some '\x7d' ∨ (skipBlanks v).count '\n' < s.count '\n' := by
  unfold readBreak at h
  split at h
  next =>
    cases h
    exact .inl rfl
  next t =>
    cases h
    rw [List.count_cons_self]
    exact .inr (.inr (Nat.lt_succ_of_le (count_skipBlanks_le v)))
  next t =>
    cases h
    rw [List.count_cons_of_ne (by decide), List.count_cons_self]
    exact .inr (.inr (Nat.lt_succ_of_le (count_skipBlanks_le v)))
  next t =>
    cases h
    exact .inr (.inl rfl)
  next =>
    split at h
    next u hu =>
      cases h
      have hle : v.count '\n' ≤ s.count '\n' := (afterComment?_suffix hu).sublist.count_le '\n'
      rcases afterComment?_ends hu with hnil | hlt
      · exact .inl hnil
      · exact .inr (.inr (Nat.lt_of_lt_of_le hlt hle))
    next => cases h

theorem readEnd_ends (h : readEnd s = .ok ((), v)) :
    v = [] ∨ v.head? = some '\x7d' ∨ (skipBlanks v).count '\n' < s.count '\n' := by
  have hle : (skipSpaces s).count '\n' ≤ s.count '\n' :=
    (skipSpaces_suffix s).sublist.count_le '\n'
  rcases readBreak_ends h with hnil | hclose | hlt
  · exact .inl hnil
  · exact .inr (.inl hclose)
  · exact .inr (.inr (Nat.lt_of_lt_of_le hlt hle))

end Breaks

section Blocks

variable {α : Type} {rule : Reader α} {s u v w : List Char} {r r' : α} {rules : List α}

/-- A rule of a block is read where the blanks before it end, to the end of its line. -/
theorem readBlockRule?_some (h : readBlockRule? rule s = .ok (some (r, v))) :
    (skipBlanks s).head? ≠ some '\x7d' ∧
      ∃ t, rule (skipBlanks s) = .ok (r, t) ∧ readEnd t = .ok ((), v) := by
  unfold readBlockRule? at h
  split at h
  next => cases h
  next hopen =>
    refine ⟨?_, ?_⟩
    · intro hhead
      obtain ⟨t, ht⟩ := List.head?_eq_some_iff.mp hhead
      exact hopen t ht
    · obtain ⟨x, hx, h⟩ := except_bind_ok h
      obtain ⟨y, hy, hx⟩ := except_bind_ok hx
      obtain ⟨z, hz, hx⟩ := except_bind_ok hx
      cases h
      cases hx
      exact ⟨y.2, hy, hz⟩

/-- The next rule of a block is on a line further down. -/
theorem readBlockRule?_below (hshort : Shortens rule)
    (h : readBlockRule? rule s = .ok (some (r, v)))
    (h' : readBlockRule? rule v = .ok (some (r', w))) :
    (skipBlanks v).count '\n' < (skipBlanks s).count '\n' := by
  obtain ⟨_, t, ht, hend⟩ := readBlockRule?_some h
  obtain ⟨hopen, t', ht', _⟩ := readBlockRule?_some h'
  have hle : t.count '\n' ≤ (skipBlanks s).count '\n' :=
    (hshort _ _ ht).1.sublist.count_le '\n'
  rcases readEnd_ends hend with rfl | hclose | hlt
  · have hnil : skipBlanks [] = [] := List.suffix_nil.mp (skipBlanks_suffix [])
    rw [hnil] at ht'
    exact absurd (hshort _ _ ht').2 (Nat.not_lt_zero _)
  · obtain ⟨z, rfl⟩ := List.head?_eq_some_iff.mp hclose
    rw [skipBlanks_of_head (by decide) (by decide)] at hopen
    exact absurd rfl hopen
  · exact Nat.lt_of_lt_of_le hlt hle

/-- A later place, on a line further down. -/
def Below (p q : List Char) : Prop :=
  q <:+ p ∧ q.count '\n' < p.count '\n'

theorem Below.shortened {p q : List Char} (h : Below p q) : Shortened p q := by
  refine ⟨h.1, Nat.lt_of_le_of_ne h.1.length_le ?_⟩
  intro hlength
  exact absurd h.2 (by rw [h.1.eq_of_length hlength]; exact Nat.lt_irrefl _)

/-- The places where the rules of a block begin, each on a line further down than the one before. -/
theorem readMany_places (hshort : Shortens rule)
    (h : readMany (readBlockRule? rule) s = .ok (rules, u)) :
    ∃ places, List.Forall₂ (fun p r => skipBlanks p = p ∧ ∃ t, rule p = .ok (r, t)) places rules ∧
      places.Pairwise Below ∧ ∀ p ∈ places, p <:+ skipBlanks s ∧ Shortened p u := by
  have hitem := readBlockRule?_shortens hshort
  induction hn : s.length using Nat.strongRecOn generalizing s rules with
  | _ n ih =>
    rcases readMany_cases hitem h with ⟨rfl, rfl⟩ | ⟨⟨r, v⟩, more, hr, hlt, hmore, rfl⟩
    · exact ⟨[], .nil, .nil, by simp⟩
    obtain ⟨_, t, ht, hend⟩ := readBlockRule?_some hr
    have hv : Shortened (skipBlanks s) v := (hshort _ _ ht).trans_suffix (readEnd_leaves t _ hend)
    have hu : u <:+ v :=
      readMany_leaves (fun s => (hitem s).mono fun o ho x hx => (ho x hx).1) v _ hmore
    obtain ⟨places, hread, hbelow, hin⟩ := ih _ (hn ▸ hlt.2) hmore rfl
    refine ⟨skipBlanks s :: places, .cons ⟨skipBlanks_skipBlanks s, t, ht⟩ hread,
      List.pairwise_cons.mpr ⟨?_, hbelow⟩, List.forall_mem_cons.mpr ⟨?_, ?_⟩⟩
    · intro q hq
      have hqv := (hin q hq).1
      refine ⟨hqv.trans ((skipBlanks_suffix v).trans hv.1), ?_⟩
      -- there is a next rule, since there is a next place
      obtain ⟨r', hr', _⟩ := forall₂_of_mem_left hread q hq
      rcases readMany_cases hitem hmore with ⟨rfl, _⟩ | ⟨⟨_, w⟩, _, hnext, _⟩
      · exact absurd hr' List.not_mem_nil
      · have hle : q.count '\n' ≤ (skipBlanks v).count '\n' := hqv.sublist.count_le '\n'
        exact Nat.lt_of_le_of_lt hle (readBlockRule?_below hshort hr hnext)
    · exact ⟨List.suffix_rfl, hv.trans_suffix hu⟩
    · intro q hq
      exact ⟨(hin q hq).1.trans ((skipBlanks_suffix v).trans hv.1), (hin q hq).2⟩

end Blocks

section Directives

variable {text s : List Char}

/-- A rule of a text is read off the place where it begins, with the line of that place. -/
structure BeginsAt {α : Type} (text : List Char) (rule : Nat → Reader α) (line : α → Nat)
    (place : List Char) (r : α) : Prop where
  suffix : place <:+ text
  first : skipBlanks place = place
  read : ∃ rest, rule (line r) place = .ok (r, rest)
  line_eq : line r = 1 + breaksBefore text place

/-- The rules of a directive, with the places where they begin. -/
inductive DirectiveAt (text : List Char) : RuleFile → List (List Char) → Prop
  | glyphClass (c : GlyphClass) : DirectiveAt text { classes := [c] } []
  | contextual {rules : List ContextualRule} {places : List (List Char)}
      (h : List.Forall₂ (BeginsAt text readContextual ContextualRule.line) places rules) :
      DirectiveAt text { contextual := rules } places
  | reorder {rules : List ReorderRule} {places : List (List Char)}
      (h : List.Forall₂ (BeginsAt text readReorder ReorderRule.line) places rules) :
      DirectiveAt text { reorder := rules } places
  | simple {rules : List SimpleRule} {places : List (List Char)}
      (h : List.Forall₂ (BeginsAt text readSimple SimpleRule.line) places rules) :
      DirectiveAt text { simple := rules } places
  | ligature {rules : List LigatureRule} {places : List (List Char)}
      (h : List.Forall₂ (BeginsAt text readLigature LigatureRule.line) places rules) :
      DirectiveAt text { ligature := rules } places
  | oneToMany {rules : List OneToManyRule} {places : List (List Char)}
      (h : List.Forall₂ (BeginsAt text readOneToMany OneToManyRule.line) places rules) :
      DirectiveAt text { oneToMany := rules } places

/-- Places on lines further and further down, from `s` on and before `rest`. -/
structure Descend (s rest : List Char) (places : List (List Char)) : Prop where
  below : places.Pairwise Below
  between : ∀ p ∈ places, p <:+ s ∧ Shortened p rest

theorem readBlock_places {α : Type} {rule : Nat → Reader α} {place : α → Nat → α} {line : α → Nat}
    (hrule : ReadsLine rule place line) (hs : s <:+ text) :
    Yields (fun x => ∃ places, List.Forall₂ (BeginsAt text rule line) places x.1 ∧
      Descend s x.2 places) (readBlock (inText rule (text.count '\n' + 1)) s) := by
  refine (readSymbol_shortened (by decide) s).bind fun x hx => ?_
  intro y hy
  obtain ⟨z, hz, hy⟩ := except_bind_ok hy
  cases hy
  obtain ⟨places, hread, hbelow, hin⟩ := readMany_places (inText_shortens hrule.shortens _) hz
  have hplaces : ∀ p ∈ places, p <:+ s := fun p hp =>
    (hin p hp).1.trans ((skipBlanks_suffix x.2).trans hx.1)
  refine ⟨places, ?_, hbelow, ?_⟩
  · refine List.forall₂_iff_get.mpr ⟨hread.length_eq, ?_⟩
    intro i hi hi'
    obtain ⟨hfirst, rest, hrest⟩ := (List.forall₂_iff_get.mp hread).2 i hi hi'
    have hp := (hplaces _ (List.get_mem places ⟨i, hi⟩)).trans hs
    have hline := hrule.line_eq hrest
    refine ⟨hp, hfirst, ⟨rest, ?_⟩, hline.trans (lineOf_eq hp)⟩
    rw [hline]
    exact hrest
  · intro p hp
    have hrest : (skipBlanks z.2).drop 1 <:+ z.2 :=
      (List.drop_suffix 1 _).trans (skipBlanks_suffix z.2)
    exact ⟨hplaces p hp, (hin p hp).2.trans_suffix hrest⟩

theorem Directive.read_places (d : Directive) (hs : s <:+ text) :
    Yields (fun x => ∃ places, DirectiveAt text x.1 places ∧ Descend s x.2 places)
      (d.read (text.count '\n' + 1) s) := by
  have hblock : ∀ {α : Type} {rule : Nat → Reader α} {place : α → Nat → α} {line : α → Nat},
      ReadsLine rule place line → ∀ {as : List α → RuleFile},
      (∀ {rules places}, List.Forall₂ (BeginsAt text rule line) places rules →
        DirectiveAt text (as rules) places) →
      Yields (fun x => ∃ places, DirectiveAt text x.1 places ∧ Descend s x.2 places)
        (readAs (readBlock (inText rule (text.count '\n' + 1))) as s) := by
    intro α rule place line hrule as has
    refine (readBlock_places hrule hs).bind fun x hx => ?_
    obtain ⟨places, hbegin, hdescend⟩ := hx
    exact yields_ok ⟨places, has hbegin, hdescend⟩
  unfold Directive.read
  cases d with
  | glyphClass =>
    refine (readToEnd_leaves readDefinition_leaves s).bind fun x _ => ?_
    exact yields_ok ⟨[], .glyphClass x.1, .nil, by simp⟩
  | contextual => exact hblock readContextual_line .contextual
  | reorder => exact hblock readReorder_line .reorder
  | simple => exact hblock readSimple_line .simple
  | ligature => exact hblock readLigature_line .ligature
  | oneToMany => exact hblock readOneToMany_line .oneToMany

theorem readDirective?_places (hs : s <:+ text) :
    Yields (fun o => ∀ x ∈ o, ∃ places, DirectiveAt text x.1 places ∧ Descend s x.2 places)
      (readDirective? (text.count '\n' + 1) s) := by
  unfold readDirective?
  split
  next => exact yields_none
  next =>
    unfold readDirective
    split
    next t ht =>
      have hat : t <:+ s := by
        have hblanks := skipBlanks_suffix s
        rw [ht] at hblanks
        exact (List.suffix_cons '@' t).trans hblanks
      rw [bind_assoc]
      refine (readKeyword_leaves _ _ t).bind fun x hx => ?_
      refine (x.1.read_places ((hx.trans hat).trans hs)).bind fun y hy => yields_some ?_
      obtain ⟨places, hplaces, hbelow, hin⟩ := hy
      exact ⟨places, hplaces, hbelow, fun p hp => ⟨(hin p hp).1.trans (hx.trans hat), (hin p hp).2⟩⟩
    next => exact yields_error _

/-- The directives of a text with the places where their rules begin, in the order of the text. -/
theorem readMany_directives {parts : List RuleFile} {rest : List Char} (hs : s <:+ text)
    (h : readMany (readDirective? (text.count '\n' + 1)) s = .ok (parts, rest)) :
    ∃ placed : List (RuleFile × List (List Char)), placed.map Prod.fst = parts ∧
      (∀ x ∈ placed, DirectiveAt text x.1 x.2 ∧ x.2.Pairwise Below) ∧
      (placed.flatMap Prod.snd).Pairwise Shortened ∧
      ∀ p ∈ placed.flatMap Prod.snd, p <:+ s := by
  induction hn : s.length using Nat.strongRecOn generalizing s parts with
  | _ n ih =>
    rcases readMany_cases (readDirective?_shortens _) h with
      ⟨rfl, _⟩ | ⟨x, more, hx, hshort, hmore, rfl⟩
    · exact ⟨[], rfl, by simp, .nil, by simp⟩
    obtain ⟨places, hplaces, hbelow, hin⟩ := readDirective?_places hs _ hx _ rfl
    obtain ⟨placed, rfl, hplaced, hpairs, hlater⟩ :=
      ih _ (hn ▸ hshort.2) (hshort.1.trans hs) hmore rfl
    refine ⟨(x.1, places) :: placed, rfl,
      List.forall_mem_cons.mpr ⟨⟨hplaces, hbelow⟩, hplaced⟩, ?_, ?_⟩
    · rw [List.flatMap_cons, List.pairwise_append]
      refine ⟨hbelow.imp Below.shortened, hpairs, ?_⟩
      exact fun p hp q hq => (hin p hp).2.trans_suffix (hlater q hq)
    · intro p hp
      rw [List.flatMap_cons, List.mem_append] at hp
      rcases hp with hp | hp
      · exact (hin p hp).1
      · exact (hlater p hp).trans hshort.1

end Directives

section Lines

variable {text : List Char} {f : RuleFile}

/-- The lines of the rules of each kind. -/
def RuleFile.kindLines (f : RuleFile) : List (List Nat) :=
  [f.contextual.map ContextualRule.line, f.reorder.map ReorderRule.line,
    f.simple.map SimpleRule.line, f.ligature.map LigatureRule.line,
    f.oneToMany.map OneToManyRule.line]

theorem map_line_of_beginsAt {α : Type} {rule : Nat → Reader α} {line : α → Nat} {rules : List α}
    {places : List (List Char)} (h : List.Forall₂ (BeginsAt text rule line) places rules) :
    rules.map line = places.map fun p => 1 + breaksBefore text p := by
  induction h with
  | nil => rfl
  | cons hbegin _ ih => rw [List.map_cons, List.map_cons, hbegin.line_eq, ih]

theorem DirectiveAt.flatten_kindLines {places : List (List Char)} (h : DirectiveAt text f places) :
    f.kindLines.flatten = places.map fun p => 1 + breaksBefore text p := by
  cases h with
  | glyphClass c => rfl
  | contextual h => simp [RuleFile.kindLines, map_line_of_beginsAt h]
  | reorder h => simp [RuleFile.kindLines, map_line_of_beginsAt h]
  | simple h => simp [RuleFile.kindLines, map_line_of_beginsAt h]
  | ligature h => simp [RuleFile.kindLines, map_line_of_beginsAt h]
  | oneToMany h => simp [RuleFile.kindLines, map_line_of_beginsAt h]

/-- The rules of each kind of two files come one after the other. -/
theorem mem_kindLines_append {f g : RuleFile} {lines : List Nat}
    (h : lines ∈ (f.append g).kindLines) :
    ∃ a ∈ f.kindLines, ∃ b ∈ g.kindLines, lines = a ++ b := by
  have happend : (f.append g).kindLines =
      (f.kindLines.zip g.kindLines).map fun x => x.1 ++ x.2 := by
    simp [RuleFile.kindLines, RuleFile.append]
  rw [happend] at h
  obtain ⟨x, hx, rfl⟩ := List.mem_map.mp h
  have hmem := List.of_mem_zip hx
  exact ⟨x.1, hmem.1, x.2, hmem.2, rfl⟩

/-- The lines of a kind are among the lines of all parts, in their order. -/
theorem kindLines_sublist (parts : List RuleFile) :
    ∀ lines ∈ (parts.foldl RuleFile.append {}).kindLines,
      lines.Sublist (parts.flatMap fun f => f.kindLines.flatten) := by
  induction parts with
  | nil => simp [RuleFile.kindLines]
  | cons part parts ih =>
    intro lines hlines
    rw [List.foldl_cons, RuleFile.empty_append, RuleFile.foldl_append] at hlines
    obtain ⟨a, ha, b, hb, rfl⟩ := mem_kindLines_append hlines
    rw [List.flatMap_cons]
    exact (List.sublist_flatten_of_mem ha).append (ih b hb)

theorem breaksBefore_le {p q : List Char} (hp : p <:+ text) (h : Shortened p q) :
    1 + breaksBefore text p ≤ 1 + breaksBefore text q := by
  rw [← lineOf_eq hp, ← lineOf_eq (h.1.trans hp)]
  exact Nat.sub_le_sub_left (h.1.sublist.count_le '\n') _

theorem breaksBefore_lt {p q : List Char} (hp : p <:+ text) (h : Below p q) :
    1 + breaksBefore text p < 1 + breaksBefore text q := by
  have hle : p.count '\n' ≤ text.count '\n' := hp.sublist.count_le '\n'
  have hlt := h.2
  rw [← lineOf_eq hp, ← lineOf_eq (h.1.trans hp), lineOf, lineOf]
  omega

/-- The directives of a text that is a rule file, each with the places where its rules begin. -/
structure Located (text : List Char) (file : RuleFile) (parts : List (RuleFile × List (List Char))) :
    Prop where
  read : ∃ lines rest, LineReader.many LineReader.directive? (.ofText text) text =
    .ok ((parts.map Prod.fst, lines), rest)
  file_eq : file = (parts.map Prod.fst).foldl RuleFile.append {}
  begins : ∀ part ∈ parts, DirectiveAt text part.1 part.2
  ordered : (parts.flatMap Prod.snd).Pairwise Shortened

theorem parse_located {source : String} (h : RuleFile.parse source = .ok f) :
    ∃ parts, Located source.toList f parts ∧
      (∀ part ∈ parts, part.2.Pairwise Below) ∧
      ∀ p ∈ parts.flatMap Prod.snd, p <:+ source.toList := by
  obtain ⟨files, rest, hmany, hfile⟩ := RuleFile.parse_parts h
  obtain ⟨parts, rfl, hparts, hordered, hplaces⟩ := readMany_directives List.suffix_rfl hmany
  have hagree := many_directive?_agree source.toList
  rw [hmany] at hagree
  obtain ⟨lines, hread⟩ := hagree.exists_counter
  exact ⟨parts, ⟨⟨lines, rest, hread⟩, hfile, fun part hpart => (hparts part hpart).1, hordered⟩,
    fun part hpart => (hparts part hpart).2, hplaces⟩

theorem Located.flatMap_kindLines {parts : List (RuleFile × List (List Char))}
    (h : Located text f parts) : (parts.flatMap fun part => part.1.kindLines.flatten) =
      (parts.flatMap Prod.snd).map fun p => 1 + breaksBefore text p := by
  rw [List.map_flatMap]
  exact List.flatMap_congr fun part hpart => (h.begins part hpart).flatten_kindLines

/-- A counter gives the line of every place, in whatever order places are looked up. The rules of a
file have the lines that it gives for their first characters, one after another; the lines of a kind
do not decrease, and those of a block increase. -/
theorem rule_lines_count_breaks :
    (∀ (text : List Char) (looked : List (List Char)), (∀ rest ∈ looked, rest <:+ text) →
      (LineCounter.ofText text).linesOf looked =
        looked.map fun rest => 1 + breaksBefore text rest) ∧
    ∀ (source : String) (file : RuleFile), RuleFile.parse source = .ok file →
      ∃ parts, Located source.toList file parts ∧
        (LineCounter.ofText source.toList).linesOf (parts.flatMap Prod.snd) =
          (parts.flatMap fun part => part.1.kindLines.flatten) ∧
        (∀ lines ∈ file.kindLines, lines.Pairwise (· ≤ ·)) ∧
        ∀ part ∈ parts, ∀ lines ∈ part.1.kindLines, lines.Pairwise (· < ·) := by
  have hcounter : ∀ (text : List Char) (looked : List (List Char)),
      (∀ rest ∈ looked, rest <:+ text) → (LineCounter.ofText text).linesOf looked =
        looked.map fun rest => 1 + breaksBefore text rest :=
    fun text looked hlooked => LineCounter.linesOf_eq (LineCounter.counts_ofText text) hlooked
  refine ⟨hcounter, ?_⟩
  intro source file h
  obtain ⟨parts, hlocated, hbelow, hplaces⟩ := parse_located h
  refine ⟨parts, hlocated, ?_, ?_, ?_⟩
  · rw [hcounter source.toList _ hplaces, hlocated.flatMap_kindLines]
  · intro lines hlines
    have hall : ((parts.map Prod.fst).flatMap fun f => f.kindLines.flatten).Pairwise (· ≤ ·) := by
      rw [List.flatMap_map, hlocated.flatMap_kindLines, List.pairwise_map]
      exact hlocated.ordered.imp_of_mem fun hp _ hpq => breaksBefore_le (hplaces _ hp) hpq
    rw [hlocated.file_eq] at hlines
    exact hall.sublist (kindLines_sublist _ lines hlines)
  · intro part hpart lines hlines
    have hall : part.1.kindLines.flatten.Pairwise (· < ·) := by
      rw [(hlocated.begins part hpart).flatten_kindLines, List.pairwise_map]
      refine (hbelow part hpart).imp_of_mem fun hp _ hpq => breaksBefore_lt ?_ hpq
      exact hplaces _ (List.mem_flatMap.mpr ⟨part, hpart, hp⟩)
    exact hall.sublist (List.sublist_flatten_of_mem hlines)

/-- Two blocks, the second of them beginning on the line where the first ends. -/
def twoBlocks : String :=
  "# é\n@simple \x7b\n a -> b\n c -> d\n\x7d @simple \x7b e -> f \x7d\n"

def twoBlocksFile : RuleFile where
  simple := [⟨.glyph "a", .glyph "b", 3⟩, ⟨.glyph "c", .glyph "d", 4⟩, ⟨.glyph "e", .glyph "f", 5⟩]

/-- The text is looked up at its end, at its start and at its second line. -/
theorem rule_lines_count_breaks_two_blocks :
    ((∀ rest ∈ [[], twoBlocks.toList, twoBlocks.toList.drop 4], rest <:+ twoBlocks.toList) ∧
      (LineCounter.ofText twoBlocks.toList).linesOf
          [[], twoBlocks.toList, twoBlocks.toList.drop 4] =
        [[], twoBlocks.toList, twoBlocks.toList.drop 4].map
          fun rest => 1 + breaksBefore twoBlocks.toList rest) ∧
    RuleFile.parse twoBlocks = .ok twoBlocksFile ∧
      ∃ parts, Located twoBlocks.toList twoBlocksFile parts ∧
        (LineCounter.ofText twoBlocks.toList).linesOf (parts.flatMap Prod.snd) =
          (parts.flatMap fun part => part.1.kindLines.flatten) ∧
        (∀ lines ∈ twoBlocksFile.kindLines, lines.Pairwise (· ≤ ·)) ∧
        ∀ part ∈ parts, ∀ lines ∈ part.1.kindLines, lines.Pairwise (· < ·) := by
  have hlooked : ∀ rest ∈ [[], twoBlocks.toList, twoBlocks.toList.drop 4],
      rest <:+ twoBlocks.toList := by
    simp [List.drop_suffix]
  have hparse : RuleFile.parse twoBlocks = .ok twoBlocksFile :=
    except_ok_of_toOption (by decide +kernel)
  exact ⟨⟨hlooked, rule_lines_count_breaks.1 _ _ hlooked⟩, hparse,
    rule_lines_count_breaks.2 _ _ hparse⟩

end Lines

end Metamorphosis
