import Metamorphosis.Document.Layout
import Metamorphosis.Proofs.Legible

namespace Metamorphosis

/-- A free text that stays on its line. -/
def OneLine (text : String) : Prop :=
  '\n' ∉ text.toList

instance : DecidablePred OneLine := fun text =>
  inferInstanceAs (Decidable ('\n' ∉ text.toList))

section Named

def GlyphClass.Named (c : GlyphClass) : Prop :=
  IsName c.name ∧ ∀ g ∈ c.glyphs, IsName g

def State.Named (s : State) : Prop :=
  IsName s.name ∧ ∀ e ∈ s.entries, IsName e.1 ∧ IsName e.2

def Action.Named : Action → Prop
  | .substituteCurrent table => IsName table
  | .substituteMarked table => IsName table
  | _ => True

def Transition.Named (t : Transition) : Prop :=
  IsName t.name ∧ IsName t.next ∧ ∀ a ∈ t.actions, a.Named

def SubstitutionTable.Named (s : SubstitutionTable) : Prop :=
  IsName s.name ∧ ∀ e ∈ s.entries, IsName e.1 ∧ IsName e.2

def StateTable.Named (t : StateTable) : Prop :=
  (∀ c ∈ t.classes, c.Named) ∧ (∀ s ∈ t.states, s.Named) ∧ (∀ tr ∈ t.transitions, tr.Named) ∧
    ∀ s ∈ t.substitutions, s.Named

/-- No glyph is named like the word for deletion. -/
def Replacement.Named : Replacement → Prop
  | .glyph name => IsName name ∧ name ≠ Glyph.deletion
  | .delete => True

def Body.Named : Body → Prop
  | .contextual table => table.Named
  | .rearrangement table => table.Named
  | .noncontextual entries => ∀ e ∈ entries, IsName e.1 ∧ e.2.Named
  | .ligature entries => ∀ e ∈ entries, IsName e.1 ∧ ∀ g ∈ e.2, IsName g
  | .insertion entries => ∀ e ∈ entries, IsName e.1 ∧ ∀ g ∈ e.2, IsName g

def Subtable.Named (s : Subtable) : Prop :=
  OneLine s.description ∧ s.body.Named

/-- All names in the document are names, and its free texts stay on their lines. -/
def Document.Named (d : Document) : Prop :=
  OneLine d.config.feature ∧ ∀ s ∈ d.subtables, s.Named

end Named

section Lines

/-- A line that its indentation and its end can be told from. -/
def Line.Clean (l : Line) : Prop :=
  OneLine l.text ∧ l.text.toList.head? ≠ some ' '

instance : DecidablePred Line.Clean := fun l =>
  inferInstanceAs (Decidable (OneLine l.text ∧ l.text.toList.head? ≠ some ' '))

theorem toList_render (l : Line) :
    l.render.toList = List.replicate (4 * l.level) ' ' ++ l.text.toList ++ ['\n'] := by
  simp [Line.render]

theorem legible_line : Legible Line.Clean (fun _ => True) fun l => l.render.toList := by
  intro l l' rest rest' hl hl' _ _ h
  have hend : ∀ l : Line, l.Clean → ∀ c ∈ List.replicate (4 * l.level) ' ' ++ l.text.toList,
      (c != '\n') = true := by
    intro l hl c hc
    rw [bne_iff_ne]
    rintro rfl
    rcases List.mem_append.mp hc with hc | hc
    · cases List.eq_of_mem_replicate hc
    · exact hl.1 hc
  have hindent : ∀ l : Line, ∀ c ∈ List.replicate (4 * l.level) ' ', (c == ' ') = true :=
    fun l c hc => beq_iff_eq.mpr (List.eq_of_mem_replicate hc)
  have hopen : ∀ l : Line, l.Clean → ∀ c ∈ l.text.toList.head?, (c == ' ') = false := by
    intro l hl c hc
    apply beq_false_of_ne
    rintro rfl
    exact hl.2 hc
  have hbreak : ∀ rest : List Char, ∀ c ∈ ('\n' :: rest).head?, (c != '\n') = false := by
    intro rest c hc
    rw [← Option.some.inj hc]
    rfl
  -- the line ends at the first break, its indentation at the first character that is no blank
  simp only [toList_render, List.append_assoc, List.singleton_append] at h
  rw [← List.append_assoc, ← List.append_assoc] at h
  obtain ⟨htext, hrest⟩ := legible_span (· != '\n') _ _ ('\n' :: rest) ('\n' :: rest') (hend l hl)
    (hend l' hl') (hbreak rest) (hbreak rest') h
  obtain ⟨hlevel, htext⟩ := legible_span (· == ' ') _ _ l.text.toList l'.text.toList (hindent l)
    (hindent l') (hopen l hl) (hopen l' hl') htext
  have hlength := congrArg List.length hlevel
  simp only [List.length_replicate] at hlength
  refine ⟨?_, (List.cons.inj hrest).2⟩
  rw [Line.mk.injEq]
  exact ⟨by omega, String.toList_injective htext⟩

theorem lines_eq_of_render_eq {d d' : Document} (hd : ∀ l ∈ d.lines, l.Clean)
    (hd' : ∀ l ∈ d'.lines, l.Clean) (h : d.render = d'.render) : d.lines = d'.lines := by
  have hlines : Legible (fun ls => ∀ l ∈ ls, l.Clean) (· = [])
      (List.flatMap fun l : Line => l.render.toList) := by
    apply legible_line.flatMap
    · exact fun _ _ => trivial
    · exact fun _ _ _ => trivial
    · intro l rest _ he
      rw [toList_render] at he
      simp at he
  have hchars := congrArg String.toList h
  simp only [Document.render, String.toList_join, List.flatMap_map] at hchars
  exact (hlines d.lines d'.lines [] [] hd hd' rfl rfl (congrArg (· ++ []) hchars)).1

end Lines

section Clean

theorem oneLine_append {a b : String} : OneLine (a ++ b) ↔ OneLine a ∧ OneLine b := by
  simp [OneLine]

theorem IsName.oneLine {name : String} (h : IsName name) : OneLine name := by
  intro hc
  cases h.2 _ hc

theorem oneLine_toString (n : Nat) : OneLine (toString n) := by
  intro hc
  rw [Nat.toString_eq_ofList_toDigits, String.toList_ofList] at hc
  cases Nat.isDigit_of_mem_toDigits (by decide) (by decide) hc

theorem oneLine_intercalate {mark : String} (hmark : OneLine mark) {texts : List String}
    (h : ∀ t ∈ texts, OneLine t) : OneLine (mark.intercalate texts) := by
  cases texts with
  | nil =>
    rw [String.intercalate_nil]
    decide
  | cons t ts =>
    obtain ⟨ht, hts⟩ := List.forall_mem_cons.mp h
    intro hc
    rw [toList_intercalate_cons, List.mem_append, List.mem_flatMap] at hc
    rcases hc with hc | ⟨t', ht', hc⟩
    · exact ht hc
    · rcases List.mem_append.mp hc with hc | hc
      · exact hmark hc
      · exact hts t' ht' hc

/-- A text that begins right at its indentation. -/
def Solid (text : String) : Prop :=
  OneLine text ∧ text.toList ≠ [] ∧ text.toList.head? ≠ some ' '

instance : DecidablePred Solid := fun text =>
  inferInstanceAs (Decidable (OneLine text ∧ text.toList ≠ [] ∧ text.toList.head? ≠ some ' '))

theorem Solid.clean {text : String} (h : Solid text) (level : Nat) : Line.Clean ⟨level, text⟩ :=
  ⟨h.1, h.2.2⟩

theorem Solid.append {a b : String} (ha : Solid a) (hb : OneLine b) : Solid (a ++ b) := by
  obtain ⟨hline, hne, hhead⟩ := ha
  refine ⟨oneLine_append.mpr ⟨hline, hb⟩, ?_⟩
  obtain ⟨c, cs, hcs⟩ := List.exists_cons_of_ne_nil hne
  rw [hcs] at hhead
  rw [String.toList_append, hcs]
  exact ⟨List.cons_ne_nil _ _, hhead⟩

theorem IsName.solid {name : String} (h : IsName name) : Solid name := by
  refine ⟨h.oneLine, h.1, ?_⟩
  intro hc
  cases h.2 _ (List.mem_of_head? hc)

theorem blank_clean : Line.blank.Clean := by
  decide

theorem braced_clean {level : Nat} {head : String} {inner : List String} (hhead : Solid head)
    (hinner : ∀ t ∈ inner, Solid t) : ∀ l ∈ braced level head inner, l.Clean := by
  have hclose : Line.Clean ⟨level, "\x7d;"⟩ := Solid.clean (by decide) level
  simp only [braced, List.cons_append, List.forall_mem_cons, List.forall_mem_append,
    List.forall_mem_map]
  exact ⟨(hhead.append (by decide)).clean level, fun t ht => (hinner t ht).clean _, hclose, by simp⟩

/-- Two names with a mark between them. -/
theorem entry_solid {mark : String} (hmark : OneLine mark) {e : String × String}
    (he : IsName e.1 ∧ IsName e.2) : Solid (e.1 ++ mark ++ e.2 ++ ";") :=
  ((he.1.solid.append hmark).append he.2.oneLine).append (by decide)

/-- A name and the names it is put together of. -/
theorem parts_solid {mark join : String} (hmark : OneLine mark) (hjoin : OneLine join)
    {e : Glyph × List Glyph} (he : IsName e.1 ∧ ∀ g ∈ e.2, IsName g) :
    Solid (e.1 ++ mark ++ join.intercalate e.2 ++ ";") := by
  have hparts : OneLine (join.intercalate e.2) :=
    oneLine_intercalate hjoin fun g hg => (he.2 g hg).oneLine
  exact ((he.1.solid.append hmark).append hparts).append (by decide)

theorem action_solid {a : Action} (h : a.Named) : Solid a.text := by
  cases a with
  | markGlyph => decide
  | markFirst => decide
  | markLast => decide
  | substituteCurrent table => exact Solid.append (by decide) (IsName.oneLine h)
  | substituteMarked table => exact Solid.append (by decide) (IsName.oneLine h)
  | rearrange verb =>
    have hverb : OneLine verb.text := by
      cases verb <;> decide
    exact (Solid.append (by decide) hverb).append (by decide)

theorem stateTable_clean (level : Nat) {t : StateTable} (h : t.Named) :
    ∀ l ∈ t.lines level, l.Clean := by
  obtain ⟨hclasses, hstates, htransitions, hsubstitutions⟩ := h
  simp only [StateTable.lines, List.forall_mem_append, List.forall_mem_map, List.forall_mem_flatMap,
    List.forall_mem_cons]
  refine ⟨⟨⟨⟨⟨?_, blank_clean, by simp⟩, ?_⟩, blank_clean, by simp⟩, ?_⟩, ?_⟩
  · intro c hc
    have hglyphs : OneLine (", ".intercalate c.glyphs) :=
      oneLine_intercalate (by decide) fun g hg => ((hclasses c hc).2 g hg).oneLine
    have hname : OneLine c.name := (hclasses c hc).1.oneLine
    have hopen : Solid ("class " ++ c.name ++ " \x7b ") :=
      (Solid.append (by decide) hname).append (by decide)
    exact ((hopen.append hglyphs).append (by decide)).clean level
  · intro s hs
    apply braced_clean (Solid.append (by decide) (hstates s hs).1.oneLine)
    rw [List.forall_mem_map]
    exact fun e he => entry_solid (by decide) ((hstates s hs).2 e he)
  · intro tr htr
    obtain ⟨hname, hnext, hactions⟩ := htransitions tr htr
    apply braced_clean (Solid.append (by decide) hname.oneLine)
    rw [List.forall_mem_cons, List.forall_mem_map]
    refine ⟨(Solid.append (by decide) hnext.oneLine).append (by decide), ?_⟩
    exact fun a ha => (action_solid (hactions a ha)).append (by decide)
  · intro s hs
    refine ⟨blank_clean, braced_clean (Solid.append (by decide) (hsubstitutions s hs).1.oneLine) ?_⟩
    rw [List.forall_mem_map]
    exact fun e he => entry_solid (by decide) ((hsubstitutions s hs).2 e he)

theorem body_clean (level : Nat) {b : Body} (h : b.Named) : ∀ l ∈ b.lines level, l.Clean := by
  cases b with
  | contextual table => exact stateTable_clean level h
  | rearrangement table => exact stateTable_clean level h
  | noncontextual entries =>
    rw [Body.lines, List.forall_mem_map]
    intro e he
    obtain ⟨hname, hreplacement⟩ := h e he
    have htext : OneLine e.2.text := by
      cases hr : e.2 with
      | glyph name =>
        rw [hr] at hreplacement
        exact hreplacement.1.oneLine
      | delete => decide
    exact (((hname.solid.append (by decide)).append htext).append (by decide)).clean level
  | ligature entries =>
    rw [Body.lines, List.forall_mem_map]
    exact fun e he => (parts_solid (by decide) (by decide) (h e he)).clean level
  | insertion entries =>
    rw [Body.lines, List.forall_mem_map]
    exact fun e he => (parts_solid (by decide) (by decide) (h e he)).clean level

theorem subtableLines_clean {subtables : List Subtable} (h : ∀ s ∈ subtables, s.Named)
    (number : Nat) : ∀ l ∈ subtableLines number subtables, l.Clean := by
  induction subtables generalizing number with
  | nil => simp [subtableLines]
  | cons s more ih =>
    obtain ⟨hs, hmore⟩ := List.forall_mem_cons.mp h
    have hclose : Line.Clean ⟨2, "\x7d;"⟩ := by decide
    have hnumber : Solid s!"// Subtable {number}: " :=
      (Solid.append (by decide) (oneLine_toString number)).append (by decide)
    have hkeyword : Solid s.body.keyword := by
      cases s.body <;> dsimp only [Body.keyword] <;> decide
    simp only [subtableLines, Subtable.lines, List.forall_mem_append, List.forall_mem_cons]
    refine ⟨⟨⟨⟨blank_clean, (hnumber.append hs.1).clean 2, ?_, by simp⟩, body_clean 3 hs.2⟩, hclose,
      by simp⟩, ih hmore (number + 1)⟩
    exact (hkeyword.append (by decide)).clean 2

theorem document_clean {d : Document} (h : d.Named) : ∀ l ∈ d.lines, l.Clean := by
  obtain ⟨hfeature, hsubtables⟩ := h
  have hconfig : OneLine d.config.text :=
    oneLine_append.mpr ⟨oneLine_append.mpr ⟨hfeature, by decide⟩, oneLine_toString _⟩
  have hselector : Solid s!"selector ({d.config.selector.toNat}) \x7b" :=
    (Solid.append (by decide) (oneLine_toString _)).append (by decide)
  simp only [Document.lines, List.forall_mem_append, List.forall_mem_cons]
  refine ⟨⟨⟨by decide, (Solid.append (by decide) hconfig).clean 0, blank_clean, ?_,
    hselector.clean 1, by simp⟩, subtableLines_clean hsubtables 0⟩, by decide, by decide, by simp⟩
  exact ((Solid.append (by decide) hfeature).append (by decide)).clean 0

end Clean

end Metamorphosis
