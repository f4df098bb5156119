import Metamorphosis.Proofs.StateTable.Build
import Metamorphosis.StateTable.Adjacent
import Metamorphosis.StateTable.Between
import Metamorphosis.StateTable.BetweenChain
import Metamorphosis.StateTable.Pattern

namespace Metamorphosis

namespace StateTable

theorem insertMembers_congr {members members' : List Glyph} (h : ∀ g, g ∈ members ↔ g ∈ members')
    (name : String) (cs : List GlyphClass) :
    insertMembers name members cs = insertMembers name members' cs := by
  have hset : glyphSet members = glyphSet members' := glyphSet_congr h
  induction cs with
  | nil => rw [insertMembers, insertMembers, hset]
  | cons c cs ih =>
    have hmore : glyphSet (c.glyphs ++ members) = glyphSet (c.glyphs ++ members') := by
      apply glyphSet_congr
      intro g
      rw [List.mem_append, List.mem_append, h]
    rw [insertMembers, insertMembers, hset, hmore, ih]

theorem addClass_congr {members members' : List Glyph} (h : ∀ g, g ∈ members ↔ g ∈ members')
    (t : StateTable) (name : String) : t.addClass name members = t.addClass name members' := by
  have hempty : members.isEmpty = members'.isEmpty := by
    rw [Bool.eq_iff_iff, List.isEmpty_iff, List.isEmpty_iff, List.eq_nil_iff_forall_not_mem,
      List.eq_nil_iff_forall_not_mem]
    simp only [h]
  rw [addClass, addClass, hempty, insertMembers_congr h]

/-- Classes may as well be listed in order. -/
theorem build_glyphSet (classes : List (String × List Glyph)) (states : List String)
    (routes : List Route) (transitions : List Transition) :
    build (classes.map fun c => (c.1, glyphSet c.2)) states routes transitions =
      build classes states routes transitions := by
  have hclasses : ∀ t : StateTable,
      t.addClasses (classes.map fun c => (c.1, glyphSet c.2)) = t.addClasses classes := by
    unfold addClasses
    induction classes with
    | nil => exact fun t => rfl
    | cons c cs ih =>
      intro t
      have hfirst : t.addClass c.1 (glyphSet c.2) = t.addClass c.1 c.2 :=
        addClass_congr (fun g => mem_glyphSet) t c.1
      rw [List.map_cons, List.foldl_cons, List.foldl_cons, ih]
      exact congrArg (List.foldl _ · cs) hfirst
  rw [build, build, hclasses]

section Positions

variable {patterns patterns' : List (List Glyph)}

/-- What is made of each position and its set of glyphs is the same for the same patterns. -/
theorem map_positionGlyphs_congr {β : Type} (h : ∀ p, p ∈ patterns ↔ p ∈ patterns')
    (length : Nat) (place : Nat → List Glyph → β) :
    (positionGlyphs patterns length).zipIdx.map (fun x => place x.2 (glyphSet x.1)) =
      (positionGlyphs patterns' length).zipIdx.map fun x => place x.2 (glyphSet x.1) := by
  unfold positionGlyphs
  rw [List.zipIdx_map, List.zipIdx_map, List.map_map, List.map_map]
  apply List.map_congr_left
  intro x _
  have hset : glyphSet (patterns.filterMap fun p => p[x.1]?) =
      glyphSet (patterns'.filterMap fun p => p[x.1]?) := by
    apply glyphSet_congr
    intro g
    rw [List.mem_filterMap, List.mem_filterMap]
    simp only [h]
  exact congrArg (place x.2) hset

theorem positionClasses_congr (h : ∀ p, p ∈ patterns ↔ p ∈ patterns') (length : Nat)
    (name : Nat → String) (more : List (String × List Glyph)) (states : List String)
    (routes : List Route) (transitions : List Transition) :
    build ((positionGlyphs patterns length).zipIdx.map (fun x => (name (x.2 + 1), x.1)) ++ more)
        states routes transitions =
      build ((positionGlyphs patterns' length).zipIdx.map (fun x => (name (x.2 + 1), x.1)) ++ more)
        states routes transitions := by
  rw [← build_glyphSet, ← build_glyphSet (_ ++ _), List.map_append, List.map_append, List.map_map,
    List.map_map]
  congr 2
  exact map_positionGlyphs_congr h length fun i glyphs => (name (i + 1), glyphs)

theorem chain_congr (h : ∀ p, p ∈ patterns ↔ p ∈ patterns') (side : Side) (length : Nat)
    (entries : List (Glyph × Glyph)) :
    chain side length patterns entries = chain side length patterns' entries := by
  cases side with
  | after =>
    exact congrArg (addSubstitution · _ _) (positionClasses_congr h length contextClass _ _ _ _)
  | before =>
    exact congrArg (addSubstitution · _ _) (positionClasses_congr h length contextClass _ _ _ _)

theorem whole_congr (h : ∀ p, p ∈ patterns ↔ p ∈ patterns') (length target : Nat)
    (entries : List (Glyph × Glyph)) :
    whole length target patterns entries = whole length target patterns' entries := by
  have hbuild := positionClasses_congr h length positionClass []
  simp only [List.append_nil] at hbuild
  exact congrArg (addSubstitution · _ _) (hbuild _ _ _)

end Positions

theorem between_congr {firsts firsts' seconds seconds' : List Glyph}
    (hfirsts : ∀ g, g ∈ firsts ↔ g ∈ firsts') (hseconds : ∀ g, g ∈ seconds ↔ g ∈ seconds')
    (entries : List (Glyph × Glyph)) :
    between firsts seconds entries = between firsts' seconds' entries := by
  have hroles : ∀ targets, Role.of firsts seconds targets = Role.of firsts' seconds' targets := by
    intro targets
    funext g
    have hf : firsts.contains g = firsts'.contains g := by
      rw [Bool.eq_iff_iff, List.contains_iff_mem, List.contains_iff_mem, hfirsts]
    have hs : seconds.contains g = seconds'.contains g := by
      rw [Bool.eq_iff_iff, List.contains_iff_mem, List.contains_iff_mem, hseconds]
    rw [Role.of, Role.of, hf, hs]
  have hglyphs : ∀ targets,
      glyphSet (firsts ++ seconds ++ targets) = glyphSet (firsts' ++ seconds' ++ targets) := by
    intro targets
    apply glyphSet_congr
    intro g
    simp only [List.mem_append, hfirsts, hseconds]
  simp only [between, hroles, hglyphs]

theorem betweenPositions_congr {n m : Nat} {sides sides' : List (List Glyph × List Glyph)}
    (h : ∀ s, s ∈ sides ↔ s ∈ sides') (targets : List Glyph) :
    betweenPositions n m sides targets = betweenPositions n m sides' targets := by
  have hside : ∀ side : List Glyph × List Glyph → List Glyph, ∀ p,
      p ∈ sides.map side ↔ p ∈ sides'.map side := by
    intro side p
    simp only [List.mem_map, h]
  have hfirst := map_positionGlyphs_congr (hside Prod.fst) n fun i glyphs =>
    MatchPosition.mk (firstClass (i + 1)) glyphs
  have hsecond := map_positionGlyphs_congr (hside Prod.snd) m fun i glyphs =>
    MatchPosition.mk (secondClass (i + 1)) glyphs
  unfold betweenPositions
  rw [hfirst, hsecond]

end StateTable

end Metamorphosis
