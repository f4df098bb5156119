import Metamorphosis.Proofs.GlyphRule.Provenance
import Metamorphosis.Proofs.RuleGroup.Grouping
import Metamorphosis.RuleGroup.Subtables

namespace Metamorphosis

theorem chainLength_eq_ok {side : Side} {rules : List GlyphRule} {length : Nat} :
    chainLength side rules = .ok length ↔
      2 ≤ length ∧ ((rules.head?.bind GlyphRule.pattern?).getD []).length = length := by
  unfold chainLength
  dsimp only
  split
  next hl =>
    constructor
    · intro h
      cases h
    · rintro ⟨htwo, rfl⟩
      omega
  next hl =>
    rw [Except.ok.injEq]
    constructor
    · rintro rfl
      exact ⟨by omega, rfl⟩
    · exact fun h => h.2

section Chains

variable {side : Side} {length : Nat} {rules : List GlyphRule}

theorem pattern?_of_adjacentPattern? {r : GlyphRule} {p : List Glyph}
    (h : r.adjacentPattern? side = some p) : r.pattern? = some p := by
  obtain ⟨_, hsite⟩ := GlyphRule.adjacentPattern?_eq_some.mp h
  rw [GlyphRule.pattern?, hsite]
  cases side <;> rfl

/-- The rules whose contexts have a length. -/
theorem mem_filter_isOf_chain (hlength : length ≠ 1) {r : GlyphRule} :
    r ∈ rules.filter (GlyphRule.isOf (.chain side length)) ↔
      r ∈ rules ∧ ∃ p, r.adjacentPattern? side = some p ∧ p.length = length := by
  rw [List.mem_filter, GlyphRule.isOf_chain]
  simp only [hlength, ne_eq, not_false_eq_true, and_true]

/-- The length is that of all rules of the group, so the first rule tells it. -/
theorem chainLength_filter (hsome : ∃ r ∈ rules, r.isOf (.chain side length) = true) :
    chainLength side (rules.filter (GlyphRule.isOf (.chain side length))) =
      if length < 2 then .error (.shortChain side length) else .ok length := by
  obtain ⟨r, hr, hof⟩ := hsome
  obtain ⟨_, _, _, hlength⟩ := GlyphRule.isOf_chain.mp hof
  have hne : rules.filter (GlyphRule.isOf (.chain side length)) ≠ [] :=
    List.ne_nil_of_mem (List.mem_filter.mpr ⟨hr, hof⟩)
  obtain ⟨first, rest, hshared⟩ := List.exists_cons_of_ne_nil hne
  have hfirst : first ∈ rules.filter (GlyphRule.isOf (.chain side length)) := by
    rw [hshared]
    exact List.mem_cons_self
  obtain ⟨_, p, hp, hlen⟩ := (mem_filter_isOf_chain hlength).mp hfirst
  unfold chainLength
  rw [hshared, List.head?_cons, Option.bind_some, pattern?_of_adjacentPattern? hp,
    Option.getD_some, hlen]

theorem eq_of_chainLength_filter {found : Nat}
    (hsome : ∃ r ∈ rules, r.isOf (.chain side length) = true)
    (h : chainLength side (rules.filter (GlyphRule.isOf (.chain side length))) = .ok found) :
    found = length := by
  rw [chainLength_filter hsome] at h
  split at h
  next => cases h
  next => exact (Except.ok.inj h).symm

end Chains

/-- The target of a rule with one substitution. -/
def GlyphRule.target (r : GlyphRule) : Glyph :=
  (r.pairs.head?.map Prod.fst).getD ""

theorem shape_eq_ok {r : GlyphRule} {length target : Nat} :
    r.shape = .ok (length, target) ↔
      2 ≤ length ∧ (r.pattern?.getD []).length = length ∧
        (r.pattern?.getD []).idxOf? r.target = some target := by
  unfold GlyphRule.shape
  dsimp only
  split
  next hl =>
    constructor
    · intro h
      cases h
    · rintro ⟨htwo, rfl, _⟩
      omega
  next hl =>
    have htarget : (r.pairs.head?.map Prod.fst).getD "" = r.target := rfl
    rw [htarget]
    cases hi : (r.pattern?.getD []).idxOf? r.target with
    | none => simp
    | some index =>
      simp only [Except.ok.injEq, Prod.mk.injEq, Option.some.injEq]
      constructor
      · rintro ⟨rfl, rfl⟩
        exact ⟨by omega, rfl, rfl⟩
      · exact fun h => h.2

theorem sharedShape_eq_ok {shape found : Nat × Nat} {rules : List GlyphRule} :
    sharedShape shape rules = .ok found ↔ found = shape ∧ ∀ r ∈ rules, r.shape = .ok shape := by
  induction rules with
  | nil => simp [sharedShape, eq_comm]
  | cons r rest ih =>
    rw [List.forall_mem_cons]
    constructor
    · intro h
      obtain ⟨own, hown, h⟩ := except_bind_ok h
      split at h
      next he =>
        obtain ⟨hf, hrest⟩ := ih.mp h
        exact ⟨hf, he ▸ hown, hrest⟩
      next => cases h
    · rintro ⟨hf, hown, hrest⟩
      have hshared := ih.mpr ⟨hf, hrest⟩
      rw [sharedShape, hown]
      change (if shape = shape then sharedShape shape rest else _) = _
      rwa [if_pos rfl]

theorem commonShape_eq_ok {rules : List GlyphRule} {shape : Nat × Nat} :
    commonShape rules = .ok shape ↔ rules ≠ [] ∧ ∀ r ∈ rules, r.shape = .ok shape := by
  cases rules with
  | nil =>
    constructor
    · intro h
      cases h
    · exact fun h => absurd rfl h.1
  | cons r rest =>
    rw [List.forall_mem_cons]
    constructor
    · intro h
      obtain ⟨own, hown, h⟩ := except_bind_ok h
      obtain ⟨rfl, hrest⟩ := sharedShape_eq_ok.mp h
      exact ⟨List.cons_ne_nil r rest, hown, hrest⟩
    · rintro ⟨_, hown, hrest⟩
      have hshared := sharedShape_eq_ok.mpr ⟨rfl, hrest⟩
      rw [commonShape, hown]
      exact hshared

theorem two_le_of_commonShape {rules : List GlyphRule} {length target : Nat}
    (h : commonShape rules = .ok (length, target)) : 2 ≤ length := by
  obtain ⟨hne, hall⟩ := commonShape_eq_ok.mp h
  obtain ⟨r, hr⟩ := List.exists_mem_of_ne_nil rules hne
  exact (shape_eq_ok.mp (hall r hr)).1

end Metamorphosis
