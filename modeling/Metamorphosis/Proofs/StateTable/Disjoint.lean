import Mathlib.Data.List.Pairwise
import Metamorphosis.Proofs.StateTable.Adjacent
import Metamorphosis.Proofs.StateTable.Between
import Metamorphosis.Proofs.StateTable.BetweenChain
import Metamorphosis.Proofs.StateTable.ChainAfter
import Metamorphosis.Proofs.StateTable.ChainBefore
import Metamorphosis.Proofs.StateTable.Marking
import Metamorphosis.StateTable.Pattern

namespace Metamorphosis

namespace StateTable

def ClassesDisjoint (t : StateTable) : Prop :=
  t.classes.Pairwise fun c d => ∀ g ∈ c.glyphs, g ∉ d.glyphs

instance : DecidablePred ClassesDisjoint := fun t =>
  inferInstanceAs (Decidable (t.classes.Pairwise fun c d => ∀ g ∈ c.glyphs, g ∉ d.glyphs))

/-- Every glyph is held under one name at most. -/
def HoldsOnce (t : StateTable) : Prop :=
  ∀ name name' g, t.Holds name g → t.Holds name' g → name = name'

theorem name_of_mem_insertMembers {name : String} {members : List Glyph} {cs : List GlyphClass}
    {c : GlyphClass} (h : c ∈ insertMembers name members cs) :
    c.name = name ∨ ∃ d ∈ cs, d.name = c.name := by
  induction cs with
  | nil => exact Or.inl (by rw [List.mem_singleton.mp h])
  | cons d ds ih =>
    unfold insertMembers at h
    split at h
    next =>
      rcases List.mem_cons.mp h with rfl | h
      · exact Or.inl rfl
      · exact Or.inr ⟨c, List.mem_cons_of_mem d h, rfl⟩
    next =>
      split at h
      next =>
        rcases List.mem_cons.mp h with rfl | h
        · exact Or.inl rfl
        · exact Or.inr ⟨c, h, rfl⟩
      next =>
        rcases List.mem_cons.mp h with rfl | h
        · exact Or.inr ⟨c, List.mem_cons_self, rfl⟩
        · rcases ih h with hn | ⟨e, he, hn⟩
          · exact Or.inl hn
          · exact Or.inr ⟨e, List.mem_cons_of_mem d he, hn⟩

/-- Classes in the order of their names. -/
def Ascending (cs : List GlyphClass) : Prop :=
  cs.Pairwise fun c d => precedes c.name d.name = true

theorem insertMembers_ascending (name : String) (members : List Glyph) {cs : List GlyphClass}
    (h : Ascending cs) : Ascending (insertMembers name members cs) := by
  induction cs with
  | nil => exact List.pairwise_singleton _ _
  | cons c cs ih =>
    obtain ⟨hc, hcs⟩ := List.pairwise_cons.mp h
    unfold insertMembers
    split
    next he =>
      have hn : c.name = name := beq_iff_eq.mp he
      rw [hn] at hc
      exact List.pairwise_cons.mpr ⟨hc, hcs⟩
    next hne =>
      split
      next hlt =>
        refine List.pairwise_cons.mpr ⟨?_, h⟩
        intro d hd
        rcases List.mem_cons.mp hd with rfl | hd
        · exact hlt
        · exact precedes_orders.trans hlt (hc d hd)
      next hge =>
        refine List.pairwise_cons.mpr ⟨?_, ih hcs⟩
        intro d hd
        rcases name_of_mem_insertMembers hd with hn | ⟨e, he, hn⟩
        · rw [hn]
          by_contra hle
          have heq := precedes_connected c.name name (by simpa using hle) (by simpa using hge)
          exact hne (beq_iff_eq.mpr heq)
        · rw [← hn]
          exact hc e he

theorem addClass_ascending {t : StateTable} (name : String) (members : List Glyph)
    (h : Ascending t.classes) : Ascending (t.addClass name members).classes := by
  unfold addClass
  split
  next => exact h
  next => exact insertMembers_ascending name members h

theorem addClasses_ascending {t : StateTable} (classes : List (String × List Glyph))
    (h : Ascending t.classes) : Ascending (t.addClasses classes).classes := by
  unfold addClasses
  induction classes generalizing t with
  | nil => exact h
  | cons c cs ih => exact ih (addClass_ascending c.1 c.2 h)

theorem build_ascending {classes : List (String × List Glyph)} {states : List String}
    {routes : List Route} {transitions : List Transition} :
    Ascending (build classes states routes transitions).classes := by
  rw [build_classes]
  exact addClasses_ascending classes List.Pairwise.nil

theorem addSubstitution_classes (t : StateTable) (name : String)
    (entries : List (Glyph × Glyph)) : (t.addSubstitution name entries).classes = t.classes := rfl

theorem classesDisjoint_addSubstitution {t : StateTable} {name : String}
    {entries : List (Glyph × Glyph)} :
    (t.addSubstitution name entries).ClassesDisjoint ↔ t.ClassesDisjoint := Iff.rfl

/-- Two parts that share an element are the same one, if different parts share none. -/
theorem eq_of_pairwise_disjoint {α β : Type} {parts : List α} {elements : α → List β}
    (h : parts.Pairwise fun p q => ∀ x ∈ elements p, x ∉ elements q) {p q : α} (hp : p ∈ parts)
    (hq : q ∈ parts) {x : β} (hx : x ∈ elements p) (hx' : x ∈ elements q) : p = q := by
  by_contra hne
  have : Std.Symm fun p q => ∀ x ∈ elements p, x ∉ elements q :=
    ⟨fun p q hpq x hq hp => hpq x hp hq⟩
  exact h.forall hp hq hne x hx hx'

section Once

variable {t : StateTable}

theorem classesDisjoint_iff (ha : Ascending t.classes) : t.ClassesDisjoint ↔ t.HoldsOnce := by
  constructor
  · intro hd name name' g h h'
    obtain ⟨c, hc, rfl, hg⟩ := h
    obtain ⟨d, hd', rfl, hg'⟩ := h'
    rw [eq_of_pairwise_disjoint hd hc hd' hg hg']
  · intro hone
    refine List.Pairwise.imp_of_mem ?_ ha
    intro c d hc hd hlt g hg hg'
    have he := hone c.name d.name g ⟨c, hc, rfl, hg⟩ ⟨d, hd, rfl, hg'⟩
    rw [he, precedes_orders.irrefl] at hlt
    cases hlt

/-- A table is disjoint if the class of a glyph is told by the glyph. -/
theorem classesDisjoint_of_name {className : Glyph → String} (ha : Ascending t.classes)
    (h : ∀ name g, t.Holds name g → name = className g) : t.ClassesDisjoint := by
  refine (classesDisjoint_iff ha).mpr ?_
  intro name name' g hn hn'
  rw [h name g hn, h name' g hn']

end Once

theorem adjacent_classesDisjoint (side : Side) (glyph : Glyph) (entries : List (Glyph × Glyph)) :
    (adjacent side glyph entries).ClassesDisjoint := by
  have hname : ∀ {name : String} {g : Glyph},
      adjacentClass? (g == glyph) ((entries.map Prod.fst).contains g) = some name →
        name = (adjacentClass? (g == glyph) ((entries.map Prod.fst).contains g)).getD "" := by
    intro name g h
    rw [h, Option.getD_some]
  cases side with
  | after =>
    rw [adjacent_after_eq, classesDisjoint_addSubstitution]
    exact classesDisjoint_of_name build_ascending
      fun name g h => hname (holds_adjacentClasses.mp h)
  | before =>
    rw [adjacent_before_eq, classesDisjoint_addSubstitution]
    exact classesDisjoint_of_name build_ascending
      fun name g h => hname (holds_adjacentClasses.mp h)

theorem between_classesDisjoint (firsts seconds : List Glyph) (entries : List (Glyph × Glyph)) :
    (between firsts seconds entries).ClassesDisjoint := by
  have ha : Ascending (between firsts seconds entries).classes := by
    rw [between_eq, addSubstitution_classes]
    exact build_ascending
  exact classesDisjoint_of_name ha fun name g h => (holds_between.mp h).2

theorem marking_classesDisjoint (pattern : List Glyph) (marked : List Nat)
    (entries : List (Glyph × Glyph)) : (marking pattern marked entries).ClassesDisjoint := by
  rw [marking, classesDisjoint_addSubstitution]
  exact classesDisjoint_of_name build_ascending fun name g h => (holds_placeClasses.mp h).2

theorem rearrangement_classesDisjoint (w : Window) : (rearrangement w).ClassesDisjoint := by
  unfold rearrangement
  exact classesDisjoint_of_name build_ascending fun name g h => (holds_placeClasses.mp h).2

section BetweenChain

theorem betweenChain_classesDisjoint {n m : Nat} {positions : List MatchPosition}
    (h : sharedGlyph? [] positions = none) (entries : List (Glyph × Glyph)) :
    (betweenChain n m positions entries).ClassesDisjoint := by
  have hapart := (sharedGlyph?_eq_none.mp h).2
  rw [betweenChain, classesDisjoint_addSubstitution]
  refine (classesDisjoint_iff build_ascending).mpr ?_
  intro name name' g hn hn'
  obtain ⟨members, hm, hg⟩ := holds_build.mp hn
  obtain ⟨members', hm', hg'⟩ := holds_build.mp hn'
  obtain ⟨p, hp, he⟩ := List.mem_map.mp hm
  obtain ⟨q, hq, he'⟩ := List.mem_map.mp hm'
  obtain ⟨rfl, rfl⟩ := Prod.mk.inj he
  obtain ⟨rfl, rfl⟩ := Prod.mk.inj he'
  rw [eq_of_pairwise_disjoint hapart hp hq hg hg']

end BetweenChain

section Chain

variable {positions : List (List Glyph)} {targets : List Glyph} {states : List String}
  {routes : List Route} {transitions : List Transition}

/-- The classes of a chain are disjoint exactly if its positions and targets are. -/
theorem chainClasses_disjoint_iff :
    (build (chainClasses positions targets) states routes transitions).ClassesDisjoint ↔
      Apart positions targets := by
  rw [classesDisjoint_iff build_ascending]
  constructor
  · intro hone
    have hholds : ∀ {name members g}, (name, members) ∈ chainClasses positions targets →
        g ∈ members →
          (build (chainClasses positions targets) states routes transitions).Holds name g :=
      fun hm hg => holds_build.mpr ⟨_, hm, hg⟩
    constructor
    · intro i j p q g hp hq hgp hgq
      have hi := hholds (mem_chainClasses.mpr (Or.inl ⟨i, hp, rfl⟩)) hgp
      have hj := hholds (mem_chainClasses.mpr (Or.inl ⟨j, hq, rfl⟩)) hgq
      have hname : i + 1 = j + 1 := numbered_injective (hone _ _ g hi hj)
      omega
    · intro p hp g hgp ht
      obtain ⟨i, hi⟩ := List.mem_iff_getElem?.mp hp
      have hc := hholds (mem_chainClasses.mpr (Or.inl ⟨i, hi, rfl⟩)) hgp
      have htarget := hholds (mem_chainClasses.mpr (Or.inr ⟨rfl, rfl⟩)) ht
      exact contextClass_ne_target (i + 1) (hone _ _ g hc htarget)
  · intro ha name name' g hn hn'
    rw [holds_chainClasses ha] at hn hn'
    exact Option.some.inj (hn.symm.trans hn')

theorem chain_classesDisjoint_iff {side : Side} {length : Nat} {patterns : List (List Glyph)}
    {entries : List (Glyph × Glyph)} :
    (chain side length patterns entries).ClassesDisjoint ↔
      Apart (positionGlyphs patterns length) (entries.map Prod.fst) := by
  cases side with
  | after =>
    rw [chain_after_eq, classesDisjoint_addSubstitution]
    exact chainClasses_disjoint_iff
  | before =>
    rw [chain_before_eq, classesDisjoint_addSubstitution]
    exact chainClasses_disjoint_iff

end Chain

end StateTable

end Metamorphosis
