import Mathlib.Data.List.Forall2
import Mathlib.Data.List.Infix
import Metamorphosis.Glyph

namespace Metamorphosis

/-- The word takes one or more glyphs of each position in turn. -/
def spells : List (List Glyph) → List Glyph → Bool
  | [], [] => true
  | [], _ :: _ => false
  | _ :: _, [] => false
  | p :: ps, g :: word => p.contains g && (spells ps word || spells (p :: ps) word)

/-- Some end of the glyphs spells the positions. -/
def endsIn (positions : List (List Glyph)) (glyphs : List Glyph) : Bool :=
  glyphs.tails.any (spells positions)

/-- Some beginning of the glyphs spells the positions. -/
def beginsWith (positions : List (List Glyph)) (glyphs : List Glyph) : Bool :=
  glyphs.inits.any (spells positions)

variable {ps : List (List Glyph)} {p : List Glyph} {word : List Glyph} {g : Glyph}

@[simp] theorem spells_nil_right : spells ps [] = ps.isEmpty := by
  cases ps <;> rfl

/-- The last glyph of a word is of the last position, and the word before it is over when the other
positions are, or is a word for all of them already. -/
theorem spells_concat :
    spells (ps ++ [p]) (word ++ [g]) =
      (p.contains g && (spells ps word || spells (ps ++ [p]) word)) := by
  induction word generalizing ps with
  | nil =>
    cases ps with
    | nil => simp [spells]
    | cons q qs => simp [spells]
  | cons h word ih =>
    cases ps with
    | nil =>
      have hp := @ih []
      simp only [List.nil_append] at hp
      simp only [List.nil_append, List.cons_append, spells, hp]
      cases p.contains g <;> cases p.contains h <;> cases word <;> simp [spells]
    | cons q qs =>
      have hqs := @ih qs
      have hall := @ih (q :: qs)
      simp only [List.cons_append] at hall
      simp only [List.cons_append, spells, hqs, hall]
      cases p.contains g <;> cases q.contains h <;>
        simp [Bool.or_assoc, Bool.or_left_comm]

theorem mem_of_spells (h : spells ps word = true) : ∀ x ∈ word, ∃ q ∈ ps, x ∈ q := by
  induction word generalizing ps with
  | nil => simp
  | cons y word ih =>
    cases ps with
    | nil => cases h
    | cons q qs =>
      rw [spells, Bool.and_eq_true, Bool.or_eq_true] at h
      intro x hx
      rcases List.mem_cons.mp hx with rfl | hx
      · exact ⟨q, List.mem_cons_self, List.contains_iff_mem.mp h.1⟩
      · rcases h.2 with h | h
        · obtain ⟨r, hr, hx⟩ := ih h x hx
          exact ⟨r, List.mem_cons_of_mem _ hr, hx⟩
        · exact ih h x hx

/-- A word goes through the other positions before it comes to the last. -/
theorem spells_split (h : spells (ps ++ [p]) word = true) :
    ∃ before x after, word = before ++ x :: after ∧ spells ps before = true ∧ x ∈ p := by
  induction word using List.reverseRecOn with
  | nil => simp at h
  | append_singleton word x ih =>
    rw [spells_concat, Bool.and_eq_true, Bool.or_eq_true] at h
    rcases h.2 with hword | hword
    · exact ⟨word, x, [], rfl, hword, List.contains_iff_mem.mp h.1⟩
    · obtain ⟨before, y, after, rfl, hbefore, hy⟩ := ih hword
      exact ⟨before, y, after ++ [x], by simp, hbefore, hy⟩

/-- A word comes to the other positions after its last glyph of the first. -/
theorem spells_cons_split (h : spells (p :: ps) word = true) :
    ∃ before x after, word = before ++ x :: after ∧ x ∈ p ∧ spells ps after = true := by
  induction word with
  | nil => cases h
  | cons y word ih =>
    rw [spells, Bool.and_eq_true, Bool.or_eq_true] at h
    rcases h.2 with hword | hword
    · exact ⟨[], y, word, rfl, List.contains_iff_mem.mp h.1, hword⟩
    · obtain ⟨before, x, after, rfl, hx, hafter⟩ := ih hword
      exact ⟨y :: before, x, after, rfl, hx, hafter⟩

/-- A word begins with a block of glyphs of the first position, and goes on with a word for the
others. -/
theorem spells_cons_iff :
    spells (p :: ps) word = true ↔
      ∃ block rest, word = block ++ rest ∧ block ≠ [] ∧ (∀ x ∈ block, x ∈ p) ∧
        spells ps rest = true := by
  constructor
  · intro h
    induction word with
    | nil => cases h
    | cons y word ih =>
      rw [spells, Bool.and_eq_true, Bool.or_eq_true] at h
      have hy : y ∈ p := List.contains_iff_mem.mp h.1
      rcases h.2 with hword | hword
      · exact ⟨[y], word, rfl, by simp, by simpa using hy, hword⟩
      · obtain ⟨block, rest, rfl, _, hblock, hrest⟩ := ih hword
        exact ⟨y :: block, rest, rfl, by simp, List.forall_mem_cons.mpr ⟨hy, hblock⟩, hrest⟩
  · rintro ⟨block, rest, rfl, hne, hblock, hrest⟩
    induction block with
    | nil => exact absurd rfl hne
    | cons y block ih =>
      obtain ⟨hy, hblock⟩ := List.forall_mem_cons.mp hblock
      rw [List.cons_append, spells, List.contains_iff_mem.mpr hy, Bool.true_and, Bool.or_eq_true]
      cases block with
      | nil => exact Or.inl hrest
      | cons z block => exact Or.inr (ih (by simp) hblock)

/-- A word is a row of blocks, one for each position. -/
theorem spells_iff_blocks :
    spells ps word = true ↔ ∃ blocks : List (List Glyph), blocks.flatten = word ∧
      List.Forall₂ (fun p block => block ≠ [] ∧ ∀ x ∈ block, x ∈ p) ps blocks := by
  induction ps generalizing word with
  | nil =>
    constructor
    · intro h
      cases word with
      | nil => exact ⟨[], rfl, .nil⟩
      | cons y word => cases h
    · rintro ⟨blocks, rfl, hblocks⟩
      cases hblocks
      rfl
  | cons p ps ih =>
    rw [spells_cons_iff]
    constructor
    · rintro ⟨block, rest, rfl, hne, hblock, hrest⟩
      obtain ⟨blocks, rfl, hblocks⟩ := ih.mp hrest
      exact ⟨block :: blocks, rfl, .cons ⟨hne, hblock⟩ hblocks⟩
    · rintro ⟨_, rfl, hblocks⟩
      cases hblocks with
      | @cons _ block _ blocks hblock hblocks =>
        exact ⟨block, blocks.flatten, rfl, hblock.1, hblock.2, ih.mpr ⟨blocks, rfl, hblocks⟩⟩

theorem spells_singletons (pattern : List Glyph) :
    spells (pattern.map fun g => [g]) pattern = true := by
  induction pattern with
  | nil => rfl
  | cons g rest ih => simp [spells, ih]

/-- A word in which no glyph of the pattern stands twice in a row is the pattern. -/
theorem eq_of_spells_singletons {pattern : List Glyph}
    (h : spells (pattern.map fun g => [g]) word = true)
    (hn : ∀ g ∈ pattern, ¬[g, g] <:+: word) : word = pattern := by
  induction word generalizing pattern with
  | nil => simpa using h.symm
  | cons x word ih =>
    cases pattern with
    | nil => cases h
    | cons g rest =>
      rw [List.map_cons, spells, Bool.and_eq_true, Bool.or_eq_true] at h
      obtain rfl : x = g := by simpa using h.1
      have hrest : ∀ y ∈ rest, ¬[y, y] <:+: word :=
        fun y hy hw => hn y (List.mem_cons_of_mem _ hy) (hw.trans (List.suffix_cons x word).isInfix)
      rcases h.2 with hword | hword
      · rw [ih hword hrest]
      · -- the word would go on with the glyph that it begins with
        cases word with
        | nil => cases hword
        | cons y word =>
          rw [spells, Bool.and_eq_true] at hword
          obtain rfl : y = x := by simpa using hword.1
          exact absurd ⟨[], word, rfl⟩ (hn y List.mem_cons_self)

theorem endsIn_eq_true :
    endsIn ps word = true ↔ ∃ last, last <:+ word ∧ spells ps last = true := by
  simp [endsIn]

@[simp] theorem endsIn_nil : endsIn [] word = true :=
  endsIn_eq_true.mpr ⟨[], List.nil_suffix, rfl⟩

@[simp] theorem endsIn_nil_right : endsIn ps [] = ps.isEmpty := by
  simp [endsIn]

theorem endsIn_concat :
    endsIn (ps ++ [p]) (word ++ [g]) =
      (p.contains g && (endsIn ps word || endsIn (ps ++ [p]) word)) := by
  rw [Bool.eq_iff_iff, Bool.and_eq_true, Bool.or_eq_true, endsIn_eq_true, endsIn_eq_true,
    endsIn_eq_true]
  constructor
  · rintro ⟨last, hl, hs⟩
    rcases List.suffix_concat_iff.mp hl with rfl | ⟨before, rfl, hb⟩
    · simp at hs
    · rw [spells_concat, Bool.and_eq_true, Bool.or_eq_true] at hs
      exact ⟨hs.1, hs.2.imp (fun h => ⟨before, hb, h⟩) fun h => ⟨before, hb, h⟩⟩
  · rintro ⟨hg, ⟨before, hb, hs⟩ | ⟨before, hb, hs⟩⟩
    · exact ⟨before ++ [g], List.suffix_concat_iff.mpr (Or.inr ⟨before, rfl, hb⟩),
        by rw [spells_concat, hg, hs]; rfl⟩
    · exact ⟨before ++ [g], List.suffix_concat_iff.mpr (Or.inr ⟨before, rfl, hb⟩),
        by rw [spells_concat, hg, hs]; simp⟩

theorem endsIn_single : endsIn [p] (word ++ [g]) = p.contains g := by
  have h : endsIn ([] ++ [p]) (word ++ [g]) = _ := endsIn_concat
  simpa using h

theorem endsIn_cons :
    endsIn (p :: ps) word = true ↔
      ∃ before x after, word = before ++ x :: after ∧ x ∈ p ∧ spells ps after = true := by
  rw [endsIn_eq_true]
  constructor
  · rintro ⟨last, ⟨first, rfl⟩, hs⟩
    obtain ⟨before, x, after, rfl, hx, hafter⟩ := spells_cons_split hs
    exact ⟨first ++ before, x, after, by simp, hx, hafter⟩
  · rintro ⟨before, x, after, rfl, hx, hafter⟩
    refine ⟨x :: after, List.suffix_append _ _, ?_⟩
    rw [spells, List.contains_iff_mem.mpr hx, hafter]
    rfl

theorem beginsWith_eq_true :
    beginsWith ps word = true ↔ ∃ first, first <+: word ∧ spells ps first = true := by
  simp [beginsWith]

@[simp] theorem beginsWith_nil : beginsWith [] word = true :=
  beginsWith_eq_true.mpr ⟨[], List.nil_prefix, rfl⟩

theorem beginsWith_cons :
    beginsWith (p :: ps) (g :: word) =
      (p.contains g && (beginsWith ps word || beginsWith (p :: ps) word)) := by
  rw [Bool.eq_iff_iff, Bool.and_eq_true, Bool.or_eq_true, beginsWith_eq_true, beginsWith_eq_true,
    beginsWith_eq_true]
  constructor
  · rintro ⟨first, hf, hs⟩
    cases first with
    | nil => cases hs
    | cons x first =>
      obtain ⟨rfl, hfirst⟩ := List.cons_prefix_cons.mp hf
      rw [spells, Bool.and_eq_true, Bool.or_eq_true] at hs
      exact ⟨hs.1, hs.2.imp (fun h => ⟨first, hfirst, h⟩) fun h => ⟨first, hfirst, h⟩⟩
  · rintro ⟨hg, ⟨first, hf, hs⟩ | ⟨first, hf, hs⟩⟩
    · exact ⟨g :: first, List.cons_prefix_cons.mpr ⟨rfl, hf⟩, by rw [spells, hg, hs]; rfl⟩
    · exact ⟨g :: first, List.cons_prefix_cons.mpr ⟨rfl, hf⟩, by rw [spells, hg, hs]; simp⟩

/-- Only the positions of its glyphs matter to a word. -/
theorem beginsWith_congr {qs : List (List Glyph)} {xs ys : List Glyph}
    (h : List.Forall₂ (fun x y => ∀ q ∈ qs, q.contains x = q.contains y) xs ys) (hs : ps ⊆ qs) :
    beginsWith ps xs = beginsWith ps ys := by
  induction h generalizing ps with
  | nil => rfl
  | cons hxy _ ih =>
    cases ps with
    | nil => rw [beginsWith_nil, beginsWith_nil]
    | cons p ps =>
      have hrest : ps ⊆ qs := fun q hq => hs (List.mem_cons_of_mem _ hq)
      rw [beginsWith_cons, beginsWith_cons, hxy p (hs List.mem_cons_self), ih hrest, ih hs]

theorem beginsWith_concat :
    beginsWith (ps ++ [p]) word = true ↔
      ∃ before x after, word = before ++ x :: after ∧ spells ps before = true ∧ x ∈ p := by
  rw [beginsWith_eq_true]
  constructor
  · rintro ⟨first, ⟨rest, rfl⟩, hs⟩
    obtain ⟨before, x, after, rfl, hb, hx⟩ := spells_split hs
    exact ⟨before, x, after ++ rest, by simp, hb, hx⟩
  · rintro ⟨before, x, after, rfl, hb, hx⟩
    refine ⟨before ++ [x], ⟨after, by simp⟩, ?_⟩
    rw [spells_concat, List.contains_iff_mem.mpr hx, hb]
    rfl

theorem beginsWith_single : beginsWith [p] word = true ↔ ∃ x rest, word = x :: rest ∧ x ∈ p := by
  have h : beginsWith ([] ++ [p]) word = true ↔ _ := beginsWith_concat
  rw [List.nil_append] at h
  rw [h]
  constructor
  · rintro ⟨before, x, after, rfl, hb, hx⟩
    cases before with
    | nil => exact ⟨x, after, rfl, hx⟩
    | cons y rest => cases hb
  · rintro ⟨x, rest, rfl, hx⟩
    exact ⟨[], x, rest, rfl, rfl, hx⟩

end Metamorphosis
