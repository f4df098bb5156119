import Mathlib.Data.List.Nodup
import Mathlib.Data.List.Perm.Subperm
import Metamorphosis.Glyph

namespace Metamorphosis

/-- Of two different elements one comes before the other. -/
def Connected {α : Type} (lt : α → α → Bool) : Prop :=
  ∀ a b, lt a b = false → lt b a = false → a = b

theorem natBlt_eq_false {a b : Nat} : Nat.blt a b = false ↔ b ≤ a := by
  rw [← Bool.not_eq_true, Nat.blt_eq, Nat.not_lt]

theorem charsPrecede_connected : Connected charsPrecede := by
  intro as
  induction as with
  | nil =>
    intro bs h _
    cases bs with
    | nil => rfl
    | cons b bs => simp [charsPrecede] at h
  | cons a as ih =>
    intro bs h h'
    cases bs with
    | nil => simp [charsPrecede] at h'
    | cons b bs =>
      simp only [charsPrecede, Bool.or_eq_false_iff, natBlt_eq_false] at h h'
      have he : a = b := Char.toNat_inj.mp (by omega)
      subst he
      rw [ih bs (by simpa using h.2) (by simpa using h'.2)]

theorem precedes_connected : Connected precedes := by
  intro a b h h'
  exact String.toList_injective (charsPrecede_connected a.toList b.toList h h')

theorem natBlt_connected : Connected Nat.blt := by
  intro a b h h'
  exact Nat.le_antisymm (natBlt_eq_false.mp h') (natBlt_eq_false.mp h)

theorem pairPrecedes_connected : Connected pairPrecedes := by
  rintro ⟨a, b⟩ ⟨c, d⟩ h h'
  simp only [pairPrecedes, Bool.or_eq_false_iff, Bool.and_eq_false_iff, beq_eq_false_iff_ne,
    natBlt_eq_false] at h h'
  have hac : a = c := by omega
  have hbd : b = d := by omega
  rw [hac, hbd]

theorem mem_insertDistinct {α : Type} {lt : α → α → Bool} (hc : Connected lt) {x y : α}
    {ys : List α} : x ∈ insertDistinct lt y ys ↔ x = y ∨ x ∈ ys := by
  induction ys with
  | nil => simp [insertDistinct]
  | cons z zs ih =>
    unfold insertDistinct
    split
    next => simp
    next hyz =>
      split
      next => simp only [List.mem_cons, ih, or_left_comm]
      next hzy =>
        have he : y = z := hc y z (by simpa using hyz) (by simpa using hzy)
        simp [he]

theorem mem_sortDistinct {α : Type} {lt : α → α → Bool} (hc : Connected lt) {x : α}
    {xs : List α} : x ∈ sortDistinct lt xs ↔ x ∈ xs := by
  unfold sortDistinct
  induction xs with
  | nil => simp
  | cons y ys ih => rw [List.foldr_cons, mem_insertDistinct hc, ih, List.mem_cons]

@[simp] theorem mem_glyphSet {g : Glyph} {glyphs : List Glyph} :
    g ∈ glyphSet glyphs ↔ g ∈ glyphs :=
  mem_sortDistinct precedes_connected

section Order

/-- A strict order in which any two elements can be compared. -/
structure Orders {α : Type} (lt : α → α → Bool) : Prop where
  connected : Connected lt
  irrefl : ∀ a, lt a a = false
  trans : ∀ {a b c}, lt a b = true → lt b c = true → lt a c = true

theorem charsPrecede_irrefl (as : List Char) : charsPrecede as as = false := by
  induction as with
  | nil => rfl
  | cons a as ih =>
    have ha : Nat.blt a.toNat a.toNat = false := natBlt_eq_false.mpr (Nat.le_refl _)
    simp [charsPrecede, ih, ha]

theorem charsPrecede_trans {as bs cs : List Char} (hab : charsPrecede as bs = true)
    (hbc : charsPrecede bs cs = true) : charsPrecede as cs = true := by
  induction as generalizing bs cs with
  | nil =>
    cases cs with
    | nil => cases bs <;> simp [charsPrecede] at hbc
    | cons c cs => rfl
  | cons a as ih =>
    cases bs with
    | nil => simp [charsPrecede] at hab
    | cons b bs =>
      cases cs with
      | nil => simp [charsPrecede] at hbc
      | cons c cs =>
        simp only [charsPrecede, Bool.or_eq_true, Bool.and_eq_true, beq_iff_eq, Nat.blt_eq]
          at hab hbc ⊢
        rcases hab with hab | ⟨rfl, hab⟩
        · rcases hbc with hbc | ⟨rfl, hbc⟩
          · exact Or.inl (Nat.lt_trans hab hbc)
          · exact Or.inl hab
        · rcases hbc with hbc | ⟨rfl, hbc⟩
          · exact Or.inl hbc
          · exact Or.inr ⟨rfl, ih hab hbc⟩

theorem precedes_orders : Orders precedes :=
  ⟨precedes_connected, fun a => charsPrecede_irrefl a.toList, charsPrecede_trans⟩

theorem natBlt_orders : Orders Nat.blt := by
  refine ⟨natBlt_connected, fun a => natBlt_eq_false.mpr (Nat.le_refl a), ?_⟩
  intro a b c hab hbc
  rw [Nat.blt_eq] at hab hbc ⊢
  exact Nat.lt_trans hab hbc

theorem pairPrecedes_orders : Orders pairPrecedes := by
  refine ⟨pairPrecedes_connected, fun a => ?_, ?_⟩
  · simp [pairPrecedes, natBlt_eq_false]
  · intro a b c hab hbc
    simp only [pairPrecedes, Bool.or_eq_true, Bool.and_eq_true, beq_iff_eq, Nat.blt_eq]
      at hab hbc ⊢
    omega

variable {α : Type} {lt : α → α → Bool}

theorem Orders.nodup (ho : Orders lt) {xs : List α} (h : xs.Pairwise (lt · · = true)) :
    xs.Nodup := by
  apply h.imp
  intro a b hab he
  subst he
  rw [ho.irrefl a] at hab
  cases hab

theorem insertDistinct_pairwise (ho : Orders lt) (x : α) {ys : List α}
    (h : ys.Pairwise (lt · · = true)) : (insertDistinct lt x ys).Pairwise (lt · · = true) := by
  induction ys with
  | nil => exact List.pairwise_singleton _ x
  | cons y ys ih =>
    obtain ⟨hy, hys⟩ := List.pairwise_cons.mp h
    unfold insertDistinct
    split
    next hxy =>
      refine List.pairwise_cons.mpr ⟨?_, h⟩
      intro z hz
      rcases List.mem_cons.mp hz with rfl | hz
      · exact hxy
      · exact ho.trans hxy (hy z hz)
    next =>
      split
      next hyx =>
        refine List.pairwise_cons.mpr ⟨?_, ih hys⟩
        intro z hz
        rcases (mem_insertDistinct ho.connected).mp hz with rfl | hz
        · exact hyx
        · exact hy z hz
      next => exact h

theorem sortDistinct_pairwise (ho : Orders lt) (xs : List α) :
    (sortDistinct lt xs).Pairwise (lt · · = true) := by
  unfold sortDistinct
  induction xs with
  | nil => exact List.Pairwise.nil
  | cons x xs ih => exact insertDistinct_pairwise ho x ih

/-- A strictly increasing list is told by its elements. -/
theorem eq_of_pairwise_of_mem_iff (ho : Orders lt) {xs ys : List α}
    (hx : xs.Pairwise (lt · · = true)) (hy : ys.Pairwise (lt · · = true))
    (h : ∀ a, a ∈ xs ↔ a ∈ ys) : xs = ys := by
  have hperm : xs.Perm ys := (List.perm_ext_iff_of_nodup (ho.nodup hx) (ho.nodup hy)).mpr h
  refine List.Perm.eq_of_pairwise ?_ hx hy hperm
  intro a b _ _ hab hba
  have haa := ho.trans hab hba
  rw [ho.irrefl a] at haa
  cases haa

/-- Sorting forgets the order and the repetitions of a list. -/
theorem sortDistinct_congr (ho : Orders lt) {xs ys : List α} (h : ∀ a, a ∈ xs ↔ a ∈ ys) :
    sortDistinct lt xs = sortDistinct lt ys := by
  apply eq_of_pairwise_of_mem_iff ho (sortDistinct_pairwise ho xs) (sortDistinct_pairwise ho ys)
  intro a
  rw [mem_sortDistinct ho.connected, mem_sortDistinct ho.connected, h]

theorem glyphSet_congr {xs ys : List Glyph} (h : ∀ g, g ∈ xs ↔ g ∈ ys) : glyphSet xs = glyphSet ys :=
  sortDistinct_congr precedes_orders h

theorem nodup_glyphSet (glyphs : List Glyph) : (glyphSet glyphs).Nodup :=
  precedes_orders.nodup (sortDistinct_pairwise precedes_orders glyphs)

/-- A set has as many glyphs as the list it is made of if and only if the list repeats none. -/
theorem length_glyphSet_eq_iff {glyphs : List Glyph} :
    (glyphSet glyphs).length = glyphs.length ↔ glyphs.Nodup := by
  constructor
  · intro hl
    have hsub : (glyphSet glyphs).Subperm glyphs :=
      List.subperm_of_subset (nodup_glyphSet glyphs) fun _ => mem_glyphSet.mp
    exact (hsub.perm_of_length_le (Nat.le_of_eq hl.symm)).nodup_iff.mp (nodup_glyphSet glyphs)
  · intro hn
    exact ((List.perm_ext_iff_of_nodup (nodup_glyphSet glyphs) hn).mpr fun _ =>
      mem_glyphSet).length_eq

end Order

theorem groupByKey_singleton {α κ : Type} [BEq κ] [ReflBEq κ] (lt : κ → κ → Bool) (key : α → κ)
    (x : α) : groupByKey lt key [x] = [(key x, [x])] := by
  simp [groupByKey, sortDistinct, insertDistinct]

/-- Entries that give each key its own value can be looked up like a function. -/
theorem lookup_filterMap_keys {β : Type} (value : Glyph → Option β) (keys : List Glyph)
    (g : Glyph) :
    (keys.filterMap fun k => (value k).map fun v => (k, v)).lookup g =
      if g ∈ keys then value g else none := by
  induction keys with
  | nil => simp
  | cons k ks ih =>
    by_cases hk : g = k
    · subst hk
      cases hv : value g with
      | none => simp [hv, ih]
      | some v => simp [hv]
    · cases hv : value k with
      | none => simp [hv, ih, hk]
      | some v =>
        have hb : (g == k) = false := beq_false_of_ne hk
        simp [hv, List.lookup_cons, ih, hk, hb]

section Lookup

variable {κ β : Type} [BEq κ] [LawfulBEq κ]

theorem lookup_eq_none_of_not_mem {pairs : List (κ × β)} {k : κ}
    (h : k ∉ pairs.map Prod.fst) : pairs.lookup k = none := by
  rw [List.lookup_eq_none_iff]
  intro p hp
  rw [bne_iff_ne]
  rintro rfl
  exact h (List.mem_map_of_mem hp)

theorem mem_of_lookup {pairs : List (κ × β)} {k : κ} {v : β}
    (h : pairs.lookup k = some v) : (k, v) ∈ pairs := by
  obtain ⟨before, after, rfl, _⟩ := List.lookup_eq_some_iff.mp h
  simp

theorem exists_lookup_of_mem {pairs : List (κ × β)} {k : κ}
    (h : k ∈ pairs.map Prod.fst) : ∃ v, pairs.lookup k = some v := by
  cases hl : pairs.lookup k with
  | some v => exact ⟨v, rfl⟩
  | none =>
    obtain ⟨p, hp, rfl⟩ := List.mem_map.mp h
    have hn := List.lookup_eq_none_iff.mp hl p hp
    simp at hn

theorem isSome_lookup {pairs : List (κ × β)} {k : κ} :
    (pairs.lookup k).isSome = true ↔ k ∈ pairs.map Prod.fst := by
  constructor
  · intro h
    obtain ⟨v, hv⟩ := Option.isSome_iff_exists.mp h
    exact List.mem_map_of_mem (mem_of_lookup hv)
  · intro h
    obtain ⟨v, hv⟩ := exists_lookup_of_mem h
    rw [hv, Option.isSome_some]

/-- An entry is found under its key if no other has the key. -/
theorem lookup_of_mem_nodup {pairs : List (κ × β)}
    (hn : (pairs.map Prod.fst).Nodup) {k : κ} {v : β} (h : (k, v) ∈ pairs) :
    pairs.lookup k = some v := by
  obtain ⟨before, after, rfl⟩ := List.append_of_mem h
  rw [List.lookup_eq_some_iff]
  refine ⟨before, after, rfl, ?_⟩
  intro p hp
  rw [List.map_append, List.nodup_append] at hn
  rw [bne_iff_ne]
  exact (hn.2.2 p.1 (List.mem_map_of_mem hp) k (by simp)).symm

end Lookup

theorem getD_lookup_single (t r g : Glyph) :
    (([(t, r)] : List (Glyph × Glyph)).lookup g).getD g = if g = t then r else g := by
  by_cases h : g = t
  · simp [h]
  · simp [List.lookup_cons, beq_false_of_ne h, h]

end Metamorphosis
