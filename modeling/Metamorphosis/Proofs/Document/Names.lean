import Metamorphosis.Proofs.Document.Tables
import Metamorphosis.Proofs.Entry
import Metamorphosis.Proofs.GlyphRule.Names
import Metamorphosis.Proofs.RuleFile
import Metamorphosis.Proofs.Source.Printing
import Metamorphosis.Proofs.StateTable.Names
import Metamorphosis.Proofs.Temporaries
import Metamorphosis.Proofs.Window.Expansion

namespace Metamorphosis

open CompileM

def Replacement.glyph? : Replacement → Option Glyph
  | .glyph name => some name
  | .delete => none

namespace Body

/-- Every glyph in a class, a substitution, a mapping, a ligature or an insertion. -/
def glyphs : Body → List Glyph
  | .contextual table => table.glyphs
  | .rearrangement table => table.glyphs
  | .noncontextual entries => entries.flatMap fun e => e.1 :: e.2.glyph?.toList
  | .ligature entries => entries.flatMap fun e => e.1 :: e.2
  | .insertion entries => entries.flatMap fun e => e.1 :: e.2

/-- The glyphs that are mapped to nothing. -/
def deleted : Body → List Glyph
  | .noncontextual entries => (entries.filter fun e => e.2 == .delete).map Prod.fst
  | _ => []

end Body

namespace Document

def glyphs (d : Document) : List Glyph :=
  d.subtables.flatMap fun s => s.body.glyphs

def deleted (d : Document) : List Glyph :=
  d.subtables.flatMap fun s => s.body.deleted

end Document

variable {P D : Glyph → Prop}

/-- Every glyph of the subtable has the one property, and every deleted one the other. -/
def Subtable.Draws (P D : Glyph → Prop) (s : Subtable) : Prop :=
  (∀ g ∈ s.body.glyphs, P g) ∧ ∀ g ∈ s.body.deleted, D g

section Bodies

theorem contextual_draws {description : String} {table : StateTable}
    (h : ∀ g ∈ table.glyphs, P g) : Subtable.Draws P D ⟨description, .contextual table⟩ :=
  ⟨h, fun _ hg => absurd hg List.not_mem_nil⟩

/-- A mapping that deletes nothing. -/
theorem replacing_draws {description : String} {entries : List (Glyph × Glyph)}
    (he : ∀ e ∈ entries, P e.1 ∧ P e.2) :
    Subtable.Draws P D ⟨description, .noncontextual (entries.map fun e => (e.1, .glyph e.2))⟩ := by
  constructor
  · intro g hg
    obtain ⟨x, hx, hg⟩ := List.mem_flatMap.mp hg
    obtain ⟨e, hmem, rfl⟩ := List.mem_map.mp hx
    simp only [Replacement.glyph?, Option.toList_some, List.mem_cons, List.not_mem_nil, or_false]
      at hg
    rcases hg with rfl | rfl
    · exact (he e hmem).1
    · exact (he e hmem).2
  · intro g hg
    obtain ⟨x, hx, rfl⟩ := List.mem_map.mp hg
    obtain ⟨hx, hdelete⟩ := List.mem_filter.mp hx
    obtain ⟨e, _, rfl⟩ := List.mem_map.mp hx
    cases hdelete

theorem forall_glyphs_lists {entries : List (Glyph × List Glyph)}
    (he : ∀ e ∈ entries, P e.1 ∧ ∀ g ∈ e.2, P g) :
    ∀ g ∈ entries.flatMap fun e => e.1 :: e.2, P g := by
  intro g hg
  obtain ⟨e, hmem, hg⟩ := List.mem_flatMap.mp hg
  rcases List.mem_cons.mp hg with rfl | hg
  · exact (he e hmem).1
  · exact (he e hmem).2 g hg

end Bodies

section Groups

variable {rules : List GlyphRule}

theorem MadeOf.entries (h : MadeOf P rules) :
    ∀ e ∈ firstReplacements (substitutions rules), P e.1 ∧ P e.2 := by
  intro e he
  obtain ⟨r, hr, he⟩ := List.mem_flatMap.mp (mem_of_mem_firstReplacements he)
  exact (GlyphRule.forall_glyphs.mp (h r hr)).2 e he

theorem MadeOf.patterns (h : MadeOf P rules) :
    ∀ p ∈ rules.filterMap GlyphRule.pattern?, ∀ g ∈ p, P g := by
  intro p hp
  obtain ⟨r, hr, hp⟩ := List.mem_filterMap.mp hp
  have hsite := (GlyphRule.forall_glyphs.mp (h r hr)).1
  unfold GlyphRule.pattern? at hp
  split at hp
  next pattern hs =>
    rw [hs] at hsite
    cases hp
    exact hsite
  next pattern hs =>
    rw [hs] at hsite
    cases hp
    exact hsite
  next pattern hs =>
    rw [hs] at hsite
    cases hp
    exact hsite
  next => cases hp
  next => cases hp

theorem MadeOf.sides (h : MadeOf P rules) :
    ∀ s ∈ rules.filterMap GlyphRule.sides?, (∀ g ∈ s.1, P g) ∧ ∀ g ∈ s.2, P g := by
  intro s hs
  obtain ⟨r, hr, hs⟩ := List.mem_filterMap.mp hs
  have hsite := (GlyphRule.forall_glyphs.mp (h r hr)).1
  unfold GlyphRule.sides? at hs
  split at hs
  next first second he =>
    rw [he] at hsite
    cases hs
    exact List.forall_mem_append.mp hsite
  next => cases hs

/-- The context glyph of a group is that of its rules. -/
theorem adjacent_glyph {side : Side} {glyph : Glyph} {shared : List GlyphRule}
    (h : MadeOf P rules) (hg : .adjacent side glyph shared ∈ RuleGroup.ofRules rules) :
    P glyph := by
  rcases RuleGroup.mem_ofRules.mp hg with ⟨key, ⟨r, hr, hof⟩, he⟩ | hpass
  · rcases key with ⟨side', glyph'⟩ | ⟨side', length⟩ | ⟨first, second⟩ | _ | (_ | id)
    · obtain ⟨rfl, rfl, _⟩ := RuleGroup.adjacent.inj he
      have hsite := (GlyphRule.forall_glyphs.mp (h r hr)).1
      rw [(GlyphRule.adjacentPattern?_eq_some.mp (GlyphRule.isOf_adjacent.mp hof)).2] at hsite
      cases side <;> exact hsite glyph List.mem_cons_self
    · cases he
    · dsimp only [RuleGroup.ofKey, GroupKey.group] at he
      split at he <;> cases he
    · cases he
    · cases he
    · cases he
  · obtain ⟨ordinal, r, _, _, he⟩ := RuleGroup.mem_passGroups hpass
    cases he

theorem RuleGroup.HasTable.forall_glyphs {group : RuleGroup} {table : StateTable}
    (h : MadeOf P rules) (hg : group ∈ RuleGroup.ofRules rules) (hc : group.isContextual = true)
    (ht : group.HasTable table) : ∀ g ∈ table.glyphs, P g := by
  have hrules : MadeOf P group.rules := fun r hr => h r (RuleGroup.rules_subset hg hr)
  cases ht with
  | adjacent side glyph rules =>
    exact StateTable.forall_glyphs_adjacent side (adjacent_glyph h hg) hrules.entries
  | chain _ => exact StateTable.forall_glyphs_chain _ _ hrules.patterns hrules.entries
  | between rules =>
    refine StateTable.forall_glyphs_between ?_ ?_ hrules.entries
    · intro g hg
      obtain ⟨s, hs, hg⟩ := List.mem_flatMap.mp hg
      exact (hrules.sides s hs).1 g hg
    · intro g hg
      obtain ⟨s, hs, hg⟩ := List.mem_flatMap.mp hg
      exact (hrules.sides s hs).2 g hg
  | betweenChain _ _ _ =>
    exact StateTable.forall_glyphs_betweenChain _ _
      (StateTable.forall_betweenPositions hrules.sides (StateTable.forall_targets hrules.entries))
      hrules.entries
  | whole _ => exact StateTable.forall_glyphs_whole _ _ hrules.patterns hrules.entries
  | marking _ => cases hc

/-- The temporary glyphs of the arena have the one property, and those of rules that take several
passes the other. -/
def Arena.Provides (P D : Glyph → Prop) (a : Arena) : Prop :=
  (∀ g ∈ a.names, P g) ∧
    ∀ key code, key.purpose = .multiPass → a.code? key = some code → D (toString code)

theorem Arena.Provides.of_extends {a b : Arena} (h : b.Provides P D) (hab : a.Extends b) :
    a.Provides P D :=
  ⟨fun g hg => h.1 g (hab.names_subset hg),
    fun key code hkey hcode => h.2 key code hkey (hab key code hcode)⟩

/-- The passes of a rule delete the temporary glyphs that they mark targets with. -/
theorem passes_draw {ordinal : Nat} {r : GlyphRule} {made : List Subtable} {s s' : Session}
    (hr : ∀ g ∈ r.glyphs, P g) (hs : s'.arena.Provides P D)
    (h : exec (r.passes ordinal) s = (.ok made, s')) : ∀ sub ∈ made, sub.Draws P D := by
  obtain ⟨pattern, marked, pairs, last, hsite, hpairs, hmarks, rfl⟩ := passes_ok h
  obtain ⟨hcontext, hsides⟩ := GlyphRule.forall_glyphs.mp hr
  rw [hsite] at hcontext
  have hlast : P last.1 ∧ P last.2 := hsides last (by simp [hpairs])
  have hmarked : ∀ m ∈ marked, P m.target ∧ P m.replacement := by
    intro m hm
    apply hsides m.pair
    rw [hpairs, ← hmarks.pairs_eq]
    exact List.mem_append_left _ (List.mem_map_of_mem hm)
  have htemp : ∀ m ∈ marked, P m.temp ∧ D m.temp := by
    intro m hm
    obtain ⟨i, hi⟩ := List.mem_iff_getElem?.mp hm
    obtain ⟨code, hcode, ht⟩ := hmarks.code_eq i m hi
    rw [ht]
    exact ⟨hs.1 _ (Arena.mem_names hcode), hs.2 _ code rfl hcode⟩
  intro sub hsub
  simp only [markedSubtables, List.mem_cons, List.not_mem_nil, or_false] at hsub
  rcases hsub with rfl | rfl | rfl
  · refine contextual_draws (StateTable.forall_glyphs_marking hcontext _ ?_)
    intro e he
    obtain ⟨m, hm, rfl⟩ := List.mem_map.mp (mem_of_mem_firstReplacements he)
    exact ⟨(hmarked m hm).1, (htemp m hm).1⟩
  · have hentries : marked.map (fun m => (m.temp, Replacement.glyph m.replacement)) ++
        [(last.1, .glyph last.2)] =
        (marked.map (fun m => (m.temp, m.replacement)) ++ [last]).map
          fun e => (e.1, .glyph e.2) := by simp
    rw [hentries]
    apply replacing_draws
    intro e he
    rcases List.mem_append.mp he with he | he
    · obtain ⟨m, hm, rfl⟩ := List.mem_map.mp he
      exact ⟨(htemp m hm).1, (hmarked m hm).2⟩
    · rwa [List.mem_singleton.mp he]
  · constructor
    · intro g hg
      obtain ⟨x, hx, hg⟩ := List.mem_flatMap.mp hg
      obtain ⟨m, hm, rfl⟩ := List.mem_map.mp hx
      rw [List.mem_singleton.mp hg]
      exact (htemp m hm).1
    · intro g hg
      obtain ⟨x, hx, rfl⟩ := List.mem_map.mp hg
      obtain ⟨m, hm, rfl⟩ := List.mem_map.mp (List.mem_filter.mp hx).1
      exact (htemp m hm).2

theorem subtables_draw {group : RuleGroup} {made : List Subtable} {s s' : Session}
    (h : MadeOf P rules) (hg : group ∈ RuleGroup.ofRules rules) (hs : s'.arena.Provides P D)
    (hmade : exec group.subtables s = (.ok made, s')) : ∀ sub ∈ made, sub.Draws P D := by
  cases hc : group.isContextual with
  | true =>
    obtain ⟨description, table, rfl, _⟩ := RuleGroup.makes_contextual hc ⟨s, s', hmade⟩
    have htable := subtables_hasTable hmade _ List.mem_cons_self table rfl
    intro sub hsub
    rw [List.mem_singleton.mp hsub]
    exact contextual_draws (htable.forall_glyphs h hg hc)
  | false =>
    have hrules : MadeOf P group.rules := fun r hr => h r (RuleGroup.rules_subset hg hr)
    cases group with
    | cleanup description shared =>
      obtain ⟨m, hmade⟩ := exec_merge_bind_ok hmade
      cases hmade
      intro sub hsub
      rw [List.mem_singleton.mp hsub]
      exact replacing_draws hrules.entries
    | multiPass ordinal r => exact passes_draw (hrules r List.mem_cons_self) hs hmade
    | adjacent side glyph shared => cases hc
    | chain side shared => cases hc
    | between shared => cases hc
    | betweenChain first second shared => cases hc
    | whole shared => cases hc

/-- The subtables of glyph rules are made of the glyphs of the rules and of temporary glyphs. -/
theorem allSubtables_draw {made : List Subtable} {s s' : Session} (h : MadeOf P rules)
    (hs : s'.arena.Provides P D)
    (hmade : exec (GlyphRule.allSubtables rules) s = (.ok made, s')) :
    ∀ sub ∈ made, sub.Draws P D := by
  intro sub hsub
  obtain ⟨group, hg, ofGroup, before, after, hmem, hgroup, hext⟩ :=
    exec_allSubtables_grows hmade sub hsub
  exact subtables_draw h hg (hs.of_extends hext) hgroup sub hmem

end Groups

section Entries

variable {registry : Registry} {made : List Subtable} {s s' : Session}

theorem SimpleRule.entries_supplied {rule : SimpleRule} {entries : List (Glyph × Glyph)}
    (ht : registry.Supplies P rule.target) (hr : registry.Supplies P rule.replacement)
    (h : rule.entries registry = .ok entries) : ∀ e ∈ entries, P e.1 ∧ P e.2 := by
  obtain ⟨targets, htargets, h⟩ := except_bind_ok h
  obtain ⟨replacements, hreplacements, h⟩ := except_bind_ok h
  split at h
  next =>
    cases h
    intro e he
    obtain ⟨hfirst, hsecond⟩ := List.of_mem_zip he
    exact ⟨ht targets htargets e.1 hfirst, hr replacements hreplacements e.2 hsecond⟩
  next => cases h

theorem simple_draw {rules : List SimpleRule}
    (hs : ∀ r ∈ rules, registry.Supplies P r.target ∧ registry.Supplies P r.replacement)
    (h : exec (SimpleRule.subtables registry rules) s = (.ok made, s')) :
    ∀ sub ∈ made, sub.Draws P D := by
  obtain ⟨perRule, m, hper, h⟩ := exec_bind_ok h
  obtain ⟨m', h⟩ := exec_merge_bind_ok h
  intro sub hsub
  rw [announced_single h, List.mem_singleton] at hsub
  rw [hsub]
  apply replacing_draws
  intro e he
  obtain ⟨entries, hentries, he⟩ := List.mem_flatten.mp (mem_of_mem_firstReplacements he)
  obtain ⟨rule, hrule, before, after, hr⟩ := exec_mapM_ok hper entries hentries
  obtain ⟨ht, hreplacement⟩ := hs rule hrule
  exact SimpleRule.entries_supplied ht hreplacement (exec_atLine_inv hr).1 e he

theorem mem_of_spread? {glyphs : List Glyph} {k : Nat} {g : Glyph}
    (h : spread? glyphs k = some g) : g ∈ glyphs := by
  unfold spread? at h
  split at h
  next x _ =>
    rw [Option.some.inj h]
    exact List.mem_cons_self
  next => exact List.mem_of_getElem? h

theorem spreadEntries_supplied {head : List Glyph} {parts : List (List Glyph)} {size : Nat}
    (hh : ∀ g ∈ head, P g) (hp : ∀ part ∈ parts, ∀ g ∈ part, P g) :
    ∀ e ∈ spreadEntries head parts size, P e.1 ∧ ∀ g ∈ e.2, P g := by
  intro e he
  obtain ⟨k, _, he⟩ := List.mem_filterMap.mp he
  obtain ⟨first, hfirst, rfl⟩ := Option.map_eq_some_iff.mp he
  refine ⟨hh first (mem_of_spread? hfirst), ?_⟩
  intro g hg
  obtain ⟨part, hpart, hg⟩ := List.mem_filterMap.mp hg
  exact hp part hpart g (mem_of_spread? hg)

theorem sideBySide_supplied {head : Element} {parts : List Element} {fault : Nat → Nat → RuleFault}
    {entries : List (Glyph × List Glyph)} (hs : ∀ e ∈ head :: parts, registry.Supplies P e)
    (h : sideBySide registry head parts fault = .ok entries) :
    ∀ e ∈ entries, P e.1 ∧ ∀ g ∈ e.2, P g := by
  obtain ⟨hhead, hparts⟩ := List.forall_mem_cons.mp hs
  obtain ⟨heads, positions, _, hlists, _, _, rfl⟩ := sideBySide_ok_iff.mp h
  obtain ⟨hheads, hpositions⟩ := positionsOf_cons_iff.mp hlists
  exact spreadEntries_supplied (hhead heads hheads)
    (Registry.positionsOf_supplied hparts hpositions)

theorem mem_foldl_keepFirst {α κ : Type} [BEq κ] {key : α → κ} {entries kept : List α} {e : α}
    (h : e ∈ entries.foldl (keepFirst key) kept) : e ∈ kept ∨ e ∈ entries := by
  induction entries generalizing kept with
  | nil => exact Or.inl h
  | cons entry rest ih =>
    rcases ih h with h | h
    · unfold keepFirst at h
      split at h
      next => exact Or.inl h
      next =>
        rcases List.mem_append.mp h with h | h
        · exact Or.inl h
        · rw [List.mem_singleton.mp h]
          exact Or.inr List.mem_cons_self
    · exact Or.inr (List.mem_cons_of_mem _ h)

/-- Collected entries are those of rules. -/
theorem exec_collect_ok {ρ α κ : Type} [BEq κ] {entriesOf : ρ → CompileM (List α)} {key : α → κ}
    {event : α → Event} {kept result : List α} {rules : List ρ}
    (h : exec (collect entriesOf key event kept rules) s = (.ok result, s')) :
    ∀ e ∈ result, e ∈ kept ∨ ∃ r ∈ rules, ∃ entries before after,
      exec (entriesOf r) before = (.ok entries, after) ∧ e ∈ entries := by
  induction rules generalizing kept s with
  | nil =>
    rw [← exec_pure_ok h]
    exact fun e he => Or.inl he
  | cons r rest ih =>
    obtain ⟨entries, m, hentries, h⟩ := exec_bind_ok h
    rw [exec_bind_of_ok (exec_reportAll _ m)] at h
    intro e he
    rcases ih h e he with he | ⟨r', hr', hmade⟩
    · rcases mem_foldl_keepFirst he with he | he
      · exact Or.inl he
      · exact Or.inr ⟨r, List.mem_cons_self, entries, s, m, hentries, he⟩
    · exact Or.inr ⟨r', List.mem_cons_of_mem _ hr', hmade⟩

theorem collected_supplied {ρ κ : Type} [BEq κ] {line : ρ → Nat}
    {entriesOf : ρ → Except RuleFault (List (Glyph × List Glyph))}
    {key : Glyph × List Glyph → κ} {event : Glyph × List Glyph → Event} {rules : List ρ}
    {result : List (Glyph × List Glyph)}
    (hs : ∀ r ∈ rules, ∀ entries, entriesOf r = .ok entries →
      ∀ e ∈ entries, P e.1 ∧ ∀ g ∈ e.2, P g)
    (h : exec (collect (fun r => atLine (line r) (entriesOf r)) key event [] rules) s =
      (.ok result, s')) : ∀ e ∈ result, P e.1 ∧ ∀ g ∈ e.2, P g := by
  intro e he
  rcases exec_collect_ok h e he with he | ⟨r, hr, entries, before, after, hentries, he⟩
  · exact absurd he List.not_mem_nil
  · exact hs r hr entries (exec_atLine_inv hentries).1 e he

theorem ligature_draw {rules : List LigatureRule}
    (hs : ∀ r ∈ rules, ∀ e ∈ r.ligature :: r.components, registry.Supplies P e)
    (h : exec (LigatureRule.subtables registry rules) s = (.ok made, s')) :
    ∀ sub ∈ made, sub.Draws P D := by
  obtain ⟨entries, m, hentries, h⟩ := exec_bind_ok h
  intro sub hsub
  rw [announced_single h, List.mem_singleton] at hsub
  rw [hsub]
  refine ⟨forall_glyphs_lists (collected_supplied ?_ hentries),
    fun _ hg => absurd hg List.not_mem_nil⟩
  exact fun r hr entries he => sideBySide_supplied (hs r hr) (LigatureRule.entries_ok_iff.mp he).2

theorem oneToMany_draw {rules : List OneToManyRule}
    (hs : ∀ r ∈ rules, ∀ e ∈ r.source :: r.targets, registry.Supplies P e)
    (h : exec (OneToManyRule.subtables registry rules) s = (.ok made, s')) :
    ∀ sub ∈ made, sub.Draws P D := by
  obtain ⟨entries, m, hentries, h⟩ := exec_bind_ok h
  intro sub hsub
  rw [announced_single h, List.mem_singleton] at hsub
  rw [hsub]
  refine ⟨forall_glyphs_lists (collected_supplied ?_ hentries),
    fun _ hg => absurd hg List.not_mem_nil⟩
  exact fun r hr entries he => sideBySide_supplied (hs r hr) (OneToManyRule.entries_ok_iff.mp he).2

theorem reorder_draw {rules : List ReorderRule}
    (hs : ∀ r ∈ rules, ∀ e ∈ r.before, registry.Supplies P e)
    (h : exec (ReorderRule.subtables registry rules) s = (.ok made, s')) :
    ∀ sub ∈ made, sub.Draws P D := by
  intro sub hsub
  obtain ⟨rule, hrule, windows, before, after, w, hw, hwindows, hbody⟩ := reorder_ok h sub hsub
  obtain ⟨b, a, size, hpositions, hall⟩ :=
    ReorderRule.windows_ok_iff.mp (congrArg Prod.fst hwindows)
  obtain ⟨_, _, _, hb, _⟩ := ReorderRule.positions_ok_iff.mp hpositions
  obtain ⟨k, _, verb, _, rfl⟩ := forall₂_of_mem_right hall w hw
  have hbefore : ∀ g ∈ column b k, P g :=
    ContextualRule.forall_column (Registry.positionsOf_supplied (hs rule hrule) hb) k
  unfold Subtable.Draws
  rw [hbody]
  exact ⟨StateTable.forall_glyphs_rearrangement hbefore, fun _ hg => absurd hg List.not_mem_nil⟩

end Entries

section Files

/-- The subtables of a document are made of what the file names and of temporary glyphs. -/
theorem compile_draws {file : RuleFile} {config : Config} {document : Document} {s s' : Session}
    (hfile : ∀ g ∈ file.glyphNames, P g) (hs : s'.arena.Provides P D)
    (h : exec (file.compile config) s = (.ok document, s')) :
    ∀ sub ∈ document.subtables, sub.Draws P D := by
  obtain ⟨registry, simple, ligatures, oneToMany, contextual, reorder, m₁, m₂, m₃, m₄, m₅, hregistry,
    hsimple, hligatures, honeToMany, hcontextual, hreorder, hdocument, harena⟩ := compile_ok h
  have hsupplies : ∀ {e : Element} {line : Nat}, (e, line) ∈ file.elements →
      registry.Supplies P e :=
    fun he glyphs hglyphs g hg =>
      hfile g (RuleFile.supplies_glyphNames hregistry he glyphs hglyphs g hg)
  have hmade : ∀ sub ∈ contextual, sub.Draws P D := by
    obtain ⟨rules, m, m', hrules, hmade, hlast⟩ := contextual_ok hcontextual
    have hreordered : m₄.arena = m₅.arena :=
      (Composed.ifAny (composed_reorder registry _)).keeps.of_exec hreorder
    have hm' : m'.arena.Provides P D := by
      rw [hlast, hreordered, harena]
      exact hs
    have hgrown : m.arena.Extends m'.arena := (composed_allSubtables rules).grows.of_exec hmade
    refine allSubtables_draw ?_ hm' hmade
    refine ContextualRule.allGlyphRules_madeOf ?_ (hm'.of_extends hgrown).1 hrules
    intro rule hrule
    have helements := fun e he => hsupplies (RuleFile.mem_elements_contextual hrule (e := e) he)
    obtain ⟨hcontext, hpairs⟩ := List.forall_mem_append.mp helements
    refine ⟨hcontext, fun pair hpair => ?_⟩
    have hpair := fun e he => hpairs e (List.mem_flatMap.mpr ⟨pair, hpair, he⟩)
    exact ⟨hpair _ (by simp), hpair _ (by simp)⟩
  rw [hdocument]
  simp only [List.forall_mem_append]
  refine ⟨⟨⟨⟨ifAny_forall (simple_draw ?_) hsimple, ifAny_forall (ligature_draw ?_) hligatures⟩,
    ifAny_forall (oneToMany_draw ?_) honeToMany⟩, hmade⟩,
    ifAny_forall (reorder_draw ?_) hreorder⟩
  · exact fun r hr => ⟨hsupplies (RuleFile.mem_elements_simple hr (by simp)),
      hsupplies (RuleFile.mem_elements_simple hr (by simp))⟩
  · exact fun r hr e he => hsupplies (RuleFile.mem_elements_ligature hr he)
  · exact fun r hr e he => hsupplies (RuleFile.mem_elements_oneToMany hr he)
  · exact fun r hr e he =>
      hsupplies (RuleFile.mem_elements_reorder hr (List.mem_append_left _ he))

/-- The names of a loaded file have been checked. -/
theorem load_usable {source : String} {file : RuleFile} (h : RuleFile.load source = .ok file) :
    ∀ g ∈ file.glyphNames, Glyph.isUsable g = true := by
  unfold RuleFile.load at h
  split at h
  next => cases h
  next f _ =>
    obtain ⟨_, hchecked, h⟩ := except_bind_ok h
    cases h
    unfold RuleFile.checkNames at hchecked
    split at hchecked
    next => cases hchecked
    next hnone =>
      intro g hg
      obtain ⟨use, huse, rfl⟩ := List.mem_map.mp hg
      simpa using List.find?_eq_none.mp hnone use huse

/-- Every glyph of a document is named in the rule file or by a code of the session, and its name is
usable. Only temporary glyphs of rules that take several passes are deleted. -/
theorem document_glyphs_accounted {source : String} {file : RuleFile}
    (hload : RuleFile.load source = .ok file) {config : Config} {document : Document} {s : Session}
    (h : exec (file.compile config) (Session.fresh config.tempBase) = (.ok document, s)) :
    (∀ g ∈ document.glyphs,
      ((∃ use ∈ file.glyphUses, use.name = g) ∨
        ∃ key code, s.arena.code? key = some code ∧ g = toString code) ∧
      g ≠ Glyph.deletion ∧ g.utf8ByteSize ≤ Glyph.maxBytes) ∧
    ∀ g ∈ document.deleted, ∃ key code, key.purpose = .multiPass ∧
      s.arena.code? key = some code ∧ g = toString code := by
  have hfile : ∀ g ∈ file.glyphNames, g ∈ file.glyphNames ∨ g ∈ s.arena.names :=
    fun g hg => Or.inl hg
  have harena : s.arena.Provides (fun g => g ∈ file.glyphNames ∨ g ∈ s.arena.names)
      fun g => ∃ key code, key.purpose = .multiPass ∧ s.arena.code? key = some code ∧
        g = toString code :=
    ⟨fun g hg => Or.inr hg, fun key code hkey hcode => ⟨key, code, hkey, hcode, rfl⟩⟩
  have hdraws := compile_draws hfile harena h
  constructor
  · intro g hg
    obtain ⟨sub, hsub, hg⟩ := List.mem_flatMap.mp hg
    rcases (hdraws sub hsub).1 g hg with hg | hg
    · obtain ⟨hsize, hword⟩ := Glyph.isUsable_iff.mp (load_usable hload g hg)
      exact ⟨Or.inl (List.mem_map.mp hg), hword, hsize⟩
    · obtain ⟨key, code, hcode, rfl⟩ := Arena.exists_code_of_mem_names hg
      obtain ⟨hsize, hword⟩ := Glyph.isUsable_iff.mp (Arena.name_usable (Arena.code?_le hcode))
      exact ⟨Or.inr ⟨key, code, hcode, rfl⟩, hword, hsize⟩
  · intro g hg
    obtain ⟨sub, hsub, hg⟩ := List.mem_flatMap.mp hg
    exact (hdraws sub hsub).2 g hg

/-- A rule taken apart at its inner target and a rule in two passes, on the lines of their print. -/
def passesRules : RuleFile where
  classes := [⟨"tone", ["t"]⟩]
  contextual :=
    [⟨.when [.glyph "e", .classRef "tone", .glyph "e"], [⟨.classRef "tone", .glyph "e", none⟩], 3⟩,
      ⟨.when [.glyph "e", .glyph "b"],
        [⟨.glyph "e", .glyph "x", none⟩, ⟨.glyph "b", .glyph "y", none⟩], 4⟩]

/-- Both rules have a temporary glyph, and that of the passes is deleted. -/
theorem document_glyphs_accounted_passes :
    RuleFile.load passesRules.print = .ok passesRules ∧
    ∃ document s,
      exec (passesRules.compile { feature := "Mixed" }) (Session.fresh defaultTempBase) =
        (.ok document, s) ∧
      "65000" ∈ document.glyphs ∧ document.deleted = ["65001"] ∧
      (∀ g ∈ document.glyphs,
        ((∃ use ∈ passesRules.glyphUses, use.name = g) ∨
          ∃ key code, s.arena.code? key = some code ∧ g = toString code) ∧
        g ≠ Glyph.deletion ∧ g.utf8ByteSize ≤ Glyph.maxBytes) ∧
      ∀ g ∈ document.deleted, ∃ key code, key.purpose = .multiPass ∧
        s.arena.code? key = some code ∧ g = toString code := by
  have hplaced : passesRules.placed = passesRules := by decide
  have hload : RuleFile.load passesRules.print = .ok passesRules := by
    rw [load_print (by decide) (by decide) (by decide), hplaced]
  have hmade : ∃ document s,
      exec (passesRules.compile { feature := "Mixed" }) (Session.fresh defaultTempBase) =
        (.ok document, s) ∧
      "65000" ∈ document.glyphs ∧ document.deleted = ["65001"] := ⟨_, _, rfl, by decide, by decide⟩
  obtain ⟨document, s, h, htemp, hdeleted⟩ := hmade
  exact ⟨hload, document, s, h, htemp, hdeleted, document_glyphs_accounted hload h⟩

end Files

end Metamorphosis
