import Mathlib.Data.List.Nodup
import Metamorphosis.Proofs.Document.Lines
import Metamorphosis.Proofs.StateTable.Build

namespace Metamorphosis

section Texts

theorem GlyphClass.declaration_inj (c c' : GlyphClass) (hc : c.Named) (hc' : c'.Named)
    (h : c.declaration = c'.declaration) : c = c' := by
  unfold declaration at h
  rw [String.append_left_inj, String.append_assoc, String.append_assoc, String.append_assoc,
    String.append_assoc, String.append_right_inj, ← String.append_assoc, ← String.append_assoc] at h
  obtain ⟨hname, hglyphs⟩ := name_mark_inj (by decide) hc.1 hc'.1 h
  cases c
  cases c'
  congr
  exact joined_inj (by decide) hc.2 hc'.2 hglyphs

/-- Two names with a mark between them. -/
theorem entry_inj {mark : String} (hmark : IsMark mark) (e e' : String × String)
    (he : IsName e.1 ∧ IsName e.2) (he' : IsName e'.1 ∧ IsName e'.2)
    (h : e.1 ++ mark ++ e.2 ++ ";" = e'.1 ++ mark ++ e'.2 ++ ";") : e = e' := by
  rw [String.append_left_inj] at h
  obtain ⟨h1, h2⟩ := name_mark_inj hmark he.1 he'.1 h
  exact Prod.ext h1 h2

/-- A name and the names it is put together of. -/
theorem parts_inj {mark join : String} (hmark : IsMark mark) (hjoin : IsMark join)
    (e e' : Glyph × List Glyph) (he : IsName e.1 ∧ ∀ g ∈ e.2, IsName g)
    (he' : IsName e'.1 ∧ ∀ g ∈ e'.2, IsName g)
    (h : e.1 ++ mark ++ join.intercalate e.2 ++ ";" = e'.1 ++ mark ++ join.intercalate e'.2 ++ ";") :
    e = e' := by
  rw [String.append_left_inj] at h
  obtain ⟨h1, h2⟩ := name_mark_inj hmark he.1 he'.1 h
  exact Prod.ext h1 (joined_inj hjoin he.2 he'.2 h2)

theorem Replacement.text_inj {r r' : Replacement} (hr : r.Named) (hr' : r'.Named)
    (h : r.text = r'.text) : r = r' := by
  cases r with
  | glyph name =>
    cases r' with
    | glyph name' => exact congrArg Replacement.glyph h
    | delete => exact absurd h hr.2
  | delete =>
    cases r' with
    | glyph name' => exact absurd h.symm hr'.2
    | delete => rfl

theorem mapping_inj (e e' : Glyph × Replacement) (he : IsName e.1 ∧ e.2.Named)
    (he' : IsName e'.1 ∧ e'.2.Named)
    (h : e.1 ++ " => " ++ e.2.text ++ ";" = e'.1 ++ " => " ++ e'.2.text ++ ";") : e = e' := by
  rw [String.append_left_inj] at h
  obtain ⟨h1, h2⟩ := name_mark_inj (by decide) he.1 he'.1 h
  exact Prod.ext h1 (Replacement.text_inj he.2 he'.2 h2)

theorem Verb.text_injective : Function.Injective Verb.text := by
  intro v v' h
  have hall : ∀ v, v ∈ Verb.all := by
    intro v
    cases v <;> decide
  have hnodup : (Verb.all.map Verb.text).Nodup := by decide
  exact List.inj_on_of_nodup_map hnodup (hall v) (hall v') h

/-- The phrases for actions differ in their letters before any name in them. -/
theorem Action.text_injective : Function.Injective Action.text := by
  intro a a' h
  cases a <;> cases a' <;> dsimp only [text] at h <;> replace h := congrArg String.toList h <;>
    simp only [String.toList_append, String.reduceToList, List.cons_append, List.nil_append,
      List.cons.injEq, Char.reduceEq, reduceCtorEq, and_false, false_and, true_and, and_true,
      List.append_cancel_right_eq] at h
  case markGlyph.markGlyph => rfl
  case markFirst.markFirst => rfl
  case markLast.markLast => rfl
  case substituteCurrent.substituteCurrent => rw [String.toList_injective h]
  case substituteMarked.substituteMarked => rw [String.toList_injective h]
  case rearrange.rearrange => rw [Verb.text_injective (String.toList_injective h)]

end Texts

section Blocks

/-- The lines do not go on at a level. -/
def Apart (level : Nat) (rest : List Line) : Prop :=
  ∀ l ∈ rest.head?, l.level ≠ level

theorem apart_cons {level : Nat} {l : Line} (h : l.level ≠ level) (rest : List Line) :
    Apart level (l :: rest) := by
  intro l' hl'
  rwa [← Option.some.inj hl']

variable {α : Type} {P : α → Prop}

/-- Things on one line each, all of them at a level. -/
theorem legible_texts (level : Nat) {text : α → String}
    (htext : ∀ a a', P a → P a' → text a = text a' → a = a') :
    Legible (fun xs => ∀ x ∈ xs, P x) (Apart level)
      (List.map fun x => (⟨level, text x⟩ : Line)) := by
  intro xs ys rest rest' hxs hys hrest hrest' h
  have hlevel : ∀ zs : List α, ∀ l ∈ zs.map fun x => (⟨level, text x⟩ : Line),
      (l.level == level) = true := by
    intro zs l hl
    obtain ⟨x, _, rfl⟩ := List.mem_map.mp hl
    exact beq_self_eq_true level
  have happart : ∀ rest, Apart level rest → ∀ l ∈ rest.head?, (l.level == level) = false :=
    fun rest hrest l hl => beq_false_of_ne (hrest l hl)
  obtain ⟨hlines, hrests⟩ := legible_span (fun l : Line => l.level == level) _ _ rest rest'
    (hlevel xs) (hlevel ys) (happart rest hrest) (happart rest' hrest') h
  refine ⟨eq_of_map_eq ?_ hxs hys hlines, hrests⟩
  intro a a' ha ha' he
  exact htext a a' ha ha' (Line.mk.inj he).2

/-- The inner lines are told from the closing brace by their level. -/
theorem braced_inj {level : Nat} {head head' : String} {inner inner' : List String}
    {rest rest' : List Line}
    (h : braced level head inner ++ rest = braced level head' inner' ++ rest') :
    head = head' ∧ inner = inner' ∧ rest = rest' := by
  unfold braced at h
  simp only [List.cons_append, List.append_assoc, List.cons.injEq, Line.mk.injEq, true_and] at h
  obtain ⟨hhead, h⟩ := h
  have hclose : Apart (level + 1) (⟨level, "\x7d;"⟩ :: rest) := apart_cons (by simp) rest
  have hclose' : Apart (level + 1) (⟨level, "\x7d;"⟩ :: rest') := apart_cons (by simp) rest'
  obtain ⟨hinner, h⟩ := legible_texts (P := fun _ => True) (level + 1) (fun a a' _ _ he => he)
    inner inner' _ _ (fun _ _ => trivial) (fun _ _ => trivial) hclose hclose' h
  exact ⟨(String.append_left_inj _).mp hhead, hinner, (List.cons.inj h).2⟩

/-- Blocks of lines that tell their end, all of them begun at a level. -/
theorem Legible.blocks {write : α → List Line} {level : Nat} (hw : Legible P (fun _ => True) write)
    (hlevel : ∀ a, ∃ text more, write a = ⟨level, text⟩ :: more) :
    Legible (fun xs => ∀ x ∈ xs, P x) (Apart level) (List.flatMap write) := by
  apply hw.flatMap
  · exact fun _ _ => trivial
  · exact fun _ _ _ => trivial
  · intro a rest _ hrest
    obtain ⟨text, more, he⟩ := hlevel a
    rw [he] at hrest
    exact hrest ⟨level, text⟩ rfl rfl

theorem legible_state (level : Nat) : Legible State.Named (fun _ => True) (State.lines level) := by
  intro s s' rest rest' hs hs' _ _ h
  obtain ⟨hname, hentries, hrest⟩ := braced_inj h
  refine ⟨?_, hrest⟩
  rw [State.mk.injEq]
  exact ⟨(String.append_right_inj _).mp hname,
    eq_of_map_eq (entry_inj (by decide)) hs.2 hs'.2 hentries⟩

theorem legible_transition (level : Nat) :
    Legible Transition.Named (fun _ => True) (Transition.lines level) := by
  intro t t' rest rest' ht ht' _ _ h
  obtain ⟨hname, hinner, hrest⟩ := braced_inj h
  obtain ⟨hnext, hactions⟩ := List.cons.inj hinner
  refine ⟨?_, hrest⟩
  rw [Transition.mk.injEq]
  refine ⟨(String.append_right_inj _).mp hname,
    (String.append_right_inj _).mp ((String.append_left_inj _).mp hnext),
    eq_of_map_eq ?_ ht.2.2 ht'.2.2 hactions⟩
  exact fun a a' _ _ he => Action.text_injective ((String.append_left_inj _).mp he)

theorem legible_substitution (level : Nat) :
    Legible SubstitutionTable.Named (fun _ => True) fun s => Line.blank :: s.lines level := by
  intro s s' rest rest' hs hs' _ _ h
  obtain ⟨hname, hentries, hrest⟩ := braced_inj (List.cons.inj h).2
  refine ⟨?_, hrest⟩
  rw [SubstitutionTable.mk.injEq]
  exact ⟨(String.append_right_inj _).mp hname,
    eq_of_map_eq (entry_inj (by decide)) hs.2 hs'.2 hentries⟩

/-- The sections of a table are told apart by the blank lines between them, which are at another
level than all their lines. -/
theorem legible_stateTable {level : Nat} (hlevel : level ≠ 0) :
    Legible StateTable.Named (fun rest => Apart level rest ∧ Apart 0 rest)
      (StateTable.lines level) := by
  have hblank : ∀ rest, Apart level (Line.blank :: rest) := apart_cons hlevel.symm
  intro t t' rest rest' ht ht' hrest hrest' h
  obtain ⟨hclasses, hstates, htransitions, hsubstitutions⟩ := ht
  obtain ⟨hclasses', hstates', htransitions', hsubstitutions'⟩ := ht'
  unfold StateTable.lines at h
  simp only [List.append_assoc, List.cons_append, List.nil_append] at h
  have hnext : ∀ (substitutions : List SubstitutionTable) rest, Apart level rest →
      Apart level (substitutions.flatMap (fun s => Line.blank :: s.lines level) ++ rest) := by
    intro substitutions rest hrest
    cases substitutions with
    | nil => exact hrest
    | cons s more => exact hblank _
  -- one section after the other is read off, each up to the line that is not at its level
  obtain ⟨hc, h⟩ := legible_texts level GlyphClass.declaration_inj _ _ _ _ hclasses hclasses'
    (hblank _) (hblank _) h
  have hopens : ∀ s : State, ∃ text more, s.lines level = ⟨level, text⟩ :: more :=
    fun s => ⟨_, _, rfl⟩
  obtain ⟨hs, h⟩ := (legible_state level).blocks hopens _ _ _ _ hstates hstates' (hblank _)
    (hblank _) (List.cons.inj h).2
  have hopens : ∀ t : Transition, ∃ text more, t.lines level = ⟨level, text⟩ :: more :=
    fun t => ⟨_, _, rfl⟩
  obtain ⟨ht, h⟩ := (legible_transition level).blocks hopens _ _ _ _ htransitions htransitions'
    (hnext _ rest hrest.1) (hnext _ rest' hrest'.1) (List.cons.inj h).2
  obtain ⟨hu, h⟩ := (legible_substitution level).blocks (fun s => ⟨_, _, rfl⟩) _ _ _ _
    hsubstitutions hsubstitutions' hrest.2 hrest'.2 h
  refine ⟨?_, h⟩
  rw [StateTable.mk.injEq]
  exact ⟨hc, hs, ht, hu⟩

end Blocks

section Subtables

/-- The keyword tells the kind of a body, and the lines tell the rest. -/
theorem body_inj {b b' : Body} (hb : b.Named) (hb' : b'.Named) (hkeyword : b.keyword = b'.keyword)
    {rest rest' : List Line} (hrest : Apart 3 rest ∧ Apart 0 rest)
    (hrest' : Apart 3 rest' ∧ Apart 0 rest') (h : b.lines 3 ++ rest = b'.lines 3 ++ rest') :
    b = b' ∧ rest = rest' := by
  cases b <;> cases b' <;> simp only [Body.keyword, String.reduceEq] at hkeyword
  case contextual.contextual table table' =>
    obtain ⟨he, h⟩ := legible_stateTable (by decide) table table' rest rest' hb hb' hrest hrest' h
    exact ⟨by rw [he], h⟩
  case rearrangement.rearrangement table table' =>
    obtain ⟨he, h⟩ := legible_stateTable (by decide) table table' rest rest' hb hb' hrest hrest' h
    exact ⟨by rw [he], h⟩
  case noncontextual.noncontextual entries entries' =>
    obtain ⟨he, h⟩ := legible_texts 3 mapping_inj entries entries' rest rest' hb hb' hrest.1
      hrest'.1 h
    exact ⟨by rw [he], h⟩
  case ligature.ligature entries entries' =>
    obtain ⟨he, h⟩ := legible_texts 3 (parts_inj (by decide) (by decide)) entries entries' rest
      rest' hb hb' hrest.1 hrest'.1 h
    exact ⟨by rw [he], h⟩
  case insertion.insertion entries entries' =>
    obtain ⟨he, h⟩ := legible_texts 3 (parts_inj (by decide) (by decide)) entries entries' rest
      rest' hb hb' hrest.1 hrest'.1 h
    exact ⟨by rw [he], h⟩

theorem legible_subtable (number : Nat) :
    Legible Subtable.Named (fun _ => True) (Subtable.lines number) := by
  intro s s' rest rest' hs hs' _ _ h
  unfold Subtable.lines at h
  simp only [List.append_assoc, List.cons_append, List.nil_append, List.cons.injEq,
    Line.mk.injEq, true_and] at h
  obtain ⟨hdescription, hkeyword, h⟩ := h
  have hclose : ∀ rest, Apart 3 (⟨2, "\x7d;"⟩ :: rest) ∧ Apart 0 (⟨2, "\x7d;"⟩ :: rest) :=
    fun rest => ⟨apart_cons (by decide) rest, apart_cons (by decide) rest⟩
  obtain ⟨hbody, h⟩ := body_inj hs.2 hs'.2 ((String.append_left_inj _).mp hkeyword) (hclose rest)
    (hclose rest') h
  refine ⟨?_, (List.cons.inj h).2⟩
  rw [Subtable.mk.injEq]
  exact ⟨(String.append_right_inj _).mp hdescription, hbody⟩

/-- Numbered from the same number on, subtables are the same if their lines are. -/
theorem subtableLines_inj {subtables subtables' : List Subtable} {rest rest' : List Line}
    (hs : ∀ s ∈ subtables, s.Named) (hs' : ∀ s ∈ subtables', s.Named) (hrest : Apart 0 rest)
    (hrest' : Apart 0 rest') (number : Nat)
    (h : subtableLines number subtables ++ rest = subtableLines number subtables' ++ rest') :
    subtables = subtables' ∧ rest = rest' := by
  induction subtables generalizing subtables' number with
  | nil =>
    cases subtables' with
    | nil => exact ⟨rfl, h⟩
    | cons s' more' => exact absurd rfl (hrest Line.blank (by rw [show rest = _ from h]; rfl))
  | cons s more ih =>
    cases subtables' with
    | nil => exact absurd rfl (hrest' Line.blank (by rw [← show _ = rest' from h]; rfl))
    | cons s' more' =>
      obtain ⟨hs, hmore⟩ := List.forall_mem_cons.mp hs
      obtain ⟨hs', hmore'⟩ := List.forall_mem_cons.mp hs'
      rw [subtableLines, subtableLines, List.append_assoc, List.append_assoc] at h
      obtain ⟨he, h⟩ := legible_subtable number s s' _ _ hs hs' trivial trivial h
      obtain ⟨hes, h⟩ := ih hmore hmore' (number + 1) h
      exact ⟨by rw [he, hes], h⟩

theorem document_lines_inj {d d' : Document} (hd : d.Named) (hd' : d'.Named)
    (h : d.lines = d'.lines) :
    d.config.feature = d'.config.feature ∧ d.config.selector = d'.config.selector ∧
      d.subtables = d'.subtables := by
  unfold Document.lines at h
  simp only [List.cons_append, List.nil_append, List.cons.injEq,
    Line.mk.injEq, true_and] at h
  obtain ⟨_, hfeature, hselector, h⟩ := h
  have hclose : Apart 0 [⟨1, "\x7d;"⟩, ⟨0, "\x7d;"⟩] := apart_cons (by decide) _
  rw [String.append_left_inj, String.append_right_inj] at hfeature
  have hnumber : d.config.selector.toNat = d'.config.selector.toNat :=
    toString_nat_injective
      ((String.append_right_inj _).mp ((String.append_left_inj _).mp hselector))
  exact ⟨hfeature, UInt16.toNat_inj.mp hnumber,
    (subtableLines_inj hd.2 hd'.2 hclose hclose 0 h).1⟩

end Subtables

/-- Documents with the same text are for the same setting and have the same subtables. -/
theorem render_loses_nothing {d d' : Document} (hd : d.Named) (hd' : d'.Named)
    (h : d.render = d'.render) :
    d.config.feature = d'.config.feature ∧ d.config.selector = d'.config.selector ∧
      d.subtables = d'.subtables :=
  document_lines_inj hd hd' (lines_eq_of_render_eq (document_clean hd) (document_clean hd') h)

/-- A document with subtables of four kinds, for any first code of temporary glyphs. -/
def mixedDocument (tempBase : UInt16) : Document where
  config := { feature := "Mixed", selector := 3, tempBase }
  subtables :=
    [⟨"after a", .contextual {
        classes := [⟨"Context", ["a"]⟩, ⟨"Target", ["b", "c"]⟩]
        states := [⟨"Start", [("Context", "SawContext")]⟩,
          ⟨"SawContext", [("Target", "DoSubstitution")]⟩]
        transitions := [⟨"SawContext", "SawContext", []⟩,
          ⟨"DoSubstitution", "Start", [.substituteCurrent "Subst"]⟩]
        substitutions := [⟨"Subst", [("b", "x"), ("c", "y")]⟩] }⟩,
      ⟨"cleanup", .noncontextual [("65000", .glyph "b"), ("65001", .delete)]⟩,
      ⟨"ligatures", .ligature [("f_i", ["f", "i"])]⟩,
      ⟨"one-to-many", .insertion [("x", ["y", "z"])]⟩]

theorem mixedDocument_named (tempBase : UInt16) : (mixedDocument tempBase).Named := by
  simp only [mixedDocument, Document.Named, Subtable.Named, Body.Named, StateTable.Named,
    GlyphClass.Named, State.Named, Transition.Named, SubstitutionTable.Named, Replacement.Named,
    Action.Named, List.forall_mem_cons, List.not_mem_nil, false_implies, implies_true, and_true]
  decide

/-- The first code of temporary glyphs leaves no trace in the text; all else is the same. -/
theorem render_loses_nothing_mixed :
    (mixedDocument 65000).render = (mixedDocument 1).render ∧
      (mixedDocument 65000).config.feature = (mixedDocument 1).config.feature ∧
      (mixedDocument 65000).config.selector = (mixedDocument 1).config.selector ∧
      (mixedDocument 65000).subtables = (mixedDocument 1).subtables :=
  ⟨rfl, render_loses_nothing (mixedDocument_named 65000) (mixedDocument_named 1) rfl⟩

end Metamorphosis
