import Metamorphosis.Proofs.Ordered
import Metamorphosis.RuleGroup

namespace Metamorphosis

def RuleGroup.rules : RuleGroup → List GlyphRule
  | .adjacent _ _ rules => rules
  | .chain _ rules => rules
  | .between rules => rules
  | .betweenChain _ _ rules => rules
  | .whole rules => rules
  | .cleanup _ rules => rules
  | .multiPass _ rule => [rule]

/-- What rules of one group have in common. -/
inductive GroupKey
  | adjacent (side : Side) (glyph : Glyph)
  | chain (side : Side) (length : Nat)
  | between (first second : Nat)
  | whole
  | cleanup (id : Option String)
deriving DecidableEq

namespace GroupKey

/-- The key of a context on one side: its glyph if it is the only one, else its length. -/
def beside (side : Side) : List Glyph → GroupKey
  | [glyph] => .adjacent side glyph
  | pattern => .chain side pattern.length

/-- The group of the rules with a key. -/
def group : GroupKey → List GlyphRule → RuleGroup
  | .adjacent side glyph, rules => .adjacent side glyph rules
  | .chain side _, rules => .chain side rules
  | .between first second, rules =>
    if first = 1 ∧ second = 1 then .between rules else .betweenChain first second rules
  | .whole, rules => .whole rules
  | .cleanup (some id), rules => .cleanup ("cleanup " ++ id) rules
  | .cleanup none, rules => .cleanup "cleanup" rules

theorem beside_eq_adjacent {side side' : Side} {pattern : List Glyph} {glyph : Glyph} :
    beside side pattern = .adjacent side' glyph ↔ side = side' ∧ pattern = [glyph] := by
  unfold beside
  split
  next => simp
  next hne =>
    constructor
    · intro h
      cases h
    · rintro ⟨_, rfl⟩
      exact absurd rfl (hne glyph)

theorem beside_eq_chain {side side' : Side} {pattern : List Glyph} {length : Nat} :
    beside side pattern = .chain side' length ↔
      side = side' ∧ pattern.length = length ∧ length ≠ 1 := by
  unfold beside
  split
  next =>
    constructor
    · intro h
      cases h
    · rintro ⟨_, rfl, hne⟩
      exact absurd rfl hne
  next hne =>
    have hlen : pattern.length ≠ 1 := by
      intro h
      obtain ⟨glyph, rfl⟩ := List.length_eq_one_iff.mp h
      exact hne glyph rfl
    rw [chain.injEq]
    constructor
    · rintro ⟨rfl, rfl⟩
      exact ⟨rfl, rfl, hlen⟩
    · rintro ⟨rfl, rfl, _⟩
      exact ⟨rfl, rfl⟩

@[simp] theorem beside_ne_between (side : Side) (pattern : List Glyph) (first second : Nat) :
    beside side pattern ≠ .between first second := by
  unfold beside
  split <;> simp

@[simp] theorem beside_ne_whole (side : Side) (pattern : List Glyph) :
    beside side pattern ≠ .whole := by
  unfold beside
  split <;> simp

@[simp] theorem beside_ne_cleanup (side : Side) (pattern : List Glyph) (id : Option String) :
    beside side pattern ≠ .cleanup id := by
  unfold beside
  split <;> simp

end GroupKey

namespace GlyphRule

variable {r : GlyphRule}

def groupKey (r : GlyphRule) : GroupKey :=
  match r.site with
  | .context (.after pattern) => .beside .after pattern
  | .context (.before pattern) => .beside .before pattern
  | .context (.between first second) => .between first.length second.length
  | .context (.when _) => .whole
  | .cleanup _ => .cleanup r.group

/-- The rule takes one pass and has this key. -/
def isOf (key : GroupKey) (r : GlyphRule) : Bool :=
  !r.takesPasses && r.groupKey == key

theorem isOf_eq_true {key : GroupKey} :
    r.isOf key = true ↔ r.takesPasses = false ∧ r.groupKey = key := by
  simp [isOf]

theorem adjacentPattern?_eq_some {side : Side} {pattern : List Glyph} :
    r.adjacentPattern? side = some pattern ↔
      r.isMultiPass = false ∧ r.site = .context
        (match side with
        | .after => .after pattern
        | .before => .before pattern) := by
  unfold adjacentPattern?
  cases side <;> split <;> simp_all

theorem isOf_beside {side : Side} {pattern : List Glyph}
    (h : r.adjacentPattern? side = some pattern) : r.isOf (.beside side pattern) = true := by
  obtain ⟨hone, hsite⟩ := adjacentPattern?_eq_some.mp h
  rw [isOf_eq_true, takesPasses, hone, groupKey, hsite]
  cases side <;> exact ⟨rfl, rfl⟩

theorem isOf_adjacent {side : Side} {glyph : Glyph} :
    r.isOf (.adjacent side glyph) = true ↔ r.adjacentPattern? side = some [glyph] := by
  rw [isOf_eq_true, adjacentPattern?_eq_some, takesPasses, isCleanup, groupKey]
  rcases r.site with (pattern | pattern | ⟨first, second⟩ | pattern) | temp <;> cases side <;>
    simp [GroupKey.beside_eq_adjacent]

theorem isOf_chain {side : Side} {length : Nat} :
    r.isOf (.chain side length) = true ↔
      ∃ pattern, r.adjacentPattern? side = some pattern ∧ pattern.length = length ∧ length ≠ 1 := by
  simp only [isOf_eq_true, adjacentPattern?_eq_some, takesPasses, isCleanup, groupKey]
  rcases r.site with (pattern | pattern | ⟨first, second⟩ | pattern) | temp <;> cases side <;>
    simp [GroupKey.beside_eq_chain, and_assoc]

/-- The lengths of the two sides of a `between` rule that takes one pass. -/
def sideLengths? (r : GlyphRule) : Option (Nat × Nat) :=
  r.betweenSides?.map fun s => (s.1.length, s.2.length)

theorem isOf_between {first second : Nat} :
    r.isOf (.between first second) = true ↔ r.sideLengths? = some (first, second) := by
  rw [isOf_eq_true, takesPasses, isCleanup, groupKey, sideLengths?, betweenSides?, sides?]
  rcases r.site with (pattern | pattern | ⟨f, s⟩ | pattern) | temp <;> cases r.isMultiPass <;> simp

theorem isOf_whole : r.isOf .whole = true ↔ ∃ pattern, r.wholePattern? = some pattern := by
  rw [isOf_eq_true, takesPasses, isCleanup, groupKey, wholePattern?]
  rcases r.site with (pattern | pattern | ⟨f, s⟩ | pattern) | temp <;> cases r.isMultiPass <;> simp

theorem isOf_cleanup {id : Option String} :
    r.isOf (.cleanup id) = true ↔ r.isCleanup = true ∧ r.group = id := by
  rw [isOf_eq_true, takesPasses, isCleanup, groupKey]
  rcases r.site with (pattern | pattern | ⟨f, s⟩ | pattern) | temp <;> simp

end GlyphRule

namespace RuleGroup

variable {rules : List GlyphRule}

/-- The group of those rules that have a key. -/
def ofKey (rules : List GlyphRule) (key : GroupKey) : RuleGroup :=
  key.group (rules.filter (GlyphRule.isOf key))

/-- Keys of contexts on one side: by length, and by the glyph where there is one. -/
def adjacentKeys (side : Side) (rules : List GlyphRule) : List GroupKey :=
  let patterns := rules.filterMap (GlyphRule.adjacentPattern? side)
  (sortDistinct Nat.blt (patterns.map List.length)).flatMap fun length =>
    if length = 1 then
      (glyphSet ((patterns.filter fun p => p.length == length).map fun p => p.headD "")).map
        (.adjacent side)
    else [.chain side length]

def betweenKeys (rules : List GlyphRule) : List GroupKey :=
  (sortDistinct pairPrecedes (rules.filterMap GlyphRule.sideLengths?)).map
    fun lengths => .between lengths.1 lengths.2

def wholeKeys (rules : List GlyphRule) : List GroupKey :=
  if rules.any (GlyphRule.isOf .whole) then [.whole] else []

def namedKeys (rules : List GlyphRule) : List GroupKey :=
  (sortDistinct precedes ((rules.filter GlyphRule.isCleanup).filterMap GlyphRule.group)).map
    fun id => .cleanup (some id)

def otherKeys (rules : List GlyphRule) : List GroupKey :=
  if rules.any (GlyphRule.isOf (.cleanup none)) then [.cleanup none] else []

/-- The keys of the groups that come before rules with several passes. -/
def leadingKeys (rules : List GlyphRule) : List GroupKey :=
  adjacentKeys .after rules ++ adjacentKeys .before rules ++ betweenKeys rules ++ wholeKeys rules ++
    namedKeys rules

/-- Rules that have some part, together with it. -/
def keyed {β : Type} (part? : GlyphRule → Option β) (rules : List GlyphRule) :
    List (β × GlyphRule) :=
  rules.filterMap fun r => (part? r).map fun part => (part, r)

theorem map_snd_filter_keyed {β : Type} (part? : GlyphRule → Option β) (test : β → Bool)
    (rules : List GlyphRule) :
    ((keyed part? rules).filter fun e => test e.1).map Prod.snd =
      rules.filter fun r => (part? r).any test := by
  unfold keyed
  induction rules with
  | nil => rfl
  | cons r rest ih =>
    cases hp : part? r with
    | none => simp [hp, ih]
    | some b => cases ht : test b <;> simp [hp, ht, ih]

theorem map_fst_filter_keyed {β : Type} (part? : GlyphRule → Option β) (test : β → Bool)
    (rules : List GlyphRule) :
    ((keyed part? rules).filter fun e => test e.1).map Prod.fst =
      (rules.filterMap part?).filter test := by
  unfold keyed
  induction rules with
  | nil => rfl
  | cons r rest ih =>
    cases hp : part? r with
    | none => simp [hp, ih]
    | some b => cases ht : test b <;> simp [hp, ht, ih]

theorem map_fst_keyed {β : Type} (part? : GlyphRule → Option β) (rules : List GlyphRule) :
    (keyed part? rules).map Prod.fst = rules.filterMap part? := by
  simp [keyed, List.map_filterMap, Function.comp_def]

theorem filter_isOf_chain {side : Side} {length : Nat} (hlength : length ≠ 1) :
    rules.filter (GlyphRule.isOf (.chain side length)) =
      rules.filter fun r => (r.adjacentPattern? side).any fun p => p.length == length := by
  apply List.filter_congr
  intro r _
  rw [Bool.eq_iff_iff, GlyphRule.isOf_chain]
  cases r.adjacentPattern? side <;> simp [hlength]

theorem filter_isOf_adjacent {side : Side} {glyph : Glyph} :
    rules.filter (GlyphRule.isOf (.adjacent side glyph)) =
      rules.filter fun r =>
        (r.adjacentPattern? side).any fun p => p.length == 1 && p.headD "" == glyph := by
  apply List.filter_congr
  intro r _
  rw [Bool.eq_iff_iff, GlyphRule.isOf_adjacent]
  rcases r.adjacentPattern? side with _ | _ | ⟨g, _ | _⟩ <;> simp

theorem adjacentGroups_eq (side : Side) (rules : List GlyphRule) :
    adjacentGroups side rules = (adjacentKeys side rules).map (ofKey rules) := by
  change (groupByKey Nat.blt (List.length ∘ Prod.fst)
    (keyed (GlyphRule.adjacentPattern? side) rules)).flatMap _ = _
  unfold adjacentKeys groupByKey
  rw [List.flatMap_map, List.map_flatMap, ← List.map_map, map_fst_keyed]
  congr 1
  funext length
  have hentries : (keyed (GlyphRule.adjacentPattern? side) rules).filter
      (fun e => (List.length ∘ Prod.fst) e == length) =
        (keyed (GlyphRule.adjacentPattern? side) rules).filter fun e => e.1.length == length := rfl
  dsimp only
  rw [hentries]
  by_cases h1 : length = 1
  · have hheads := congrArg (List.map fun p : List Glyph => p.headD "") (map_fst_filter_keyed
      (GlyphRule.adjacentPattern? side) (fun p => p.length == length) rules)
    rw [List.map_map] at hheads
    rw [if_pos h1, if_pos h1, List.map_map, List.map_map, ← hheads, glyphSet]
    congr 1
    funext glyph
    rw [Function.comp_apply, Function.comp_apply, ofKey, filter_isOf_adjacent,
      ← map_snd_filter_keyed, List.filter_filter, h1]
    simp only [Bool.and_comm]
    rfl
  · rw [if_neg h1, if_neg h1,
      map_snd_filter_keyed (GlyphRule.adjacentPattern? side) (fun p => p.length == length),
      ← filter_isOf_chain h1]
    rfl

theorem betweenGroups_eq (rules : List GlyphRule) :
    betweenGroups rules = (betweenKeys rules).map (ofKey rules) := by
  have hkeyed : (rules.filterMap fun r =>
      r.betweenSides?.map fun s => ((s.1.length, s.2.length), r)) =
        keyed GlyphRule.sideLengths? rules := by
    simp [keyed, GlyphRule.sideLengths?, Function.comp_def]
  change (groupByKey pairPrecedes Prod.fst (rules.filterMap fun r =>
    r.betweenSides?.map fun s => ((s.1.length, s.2.length), r))).map _ = _
  unfold betweenKeys groupByKey
  rw [hkeyed, List.map_map, List.map_map, map_fst_keyed]
  congr 1
  funext lengths
  have hrules : rules.filter (GlyphRule.isOf (.between lengths.1 lengths.2)) =
      rules.filter fun r => r.sideLengths?.any fun l => l == lengths := by
    apply List.filter_congr
    intro r _
    rw [Bool.eq_iff_iff, GlyphRule.isOf_between]
    cases r.sideLengths? <;> simp
  rw [Function.comp_apply, Function.comp_apply, ofKey, hrules, ← map_snd_filter_keyed]
  rfl

/-- The only group of a kind is there if a rule has its key. -/
theorem map_ofKey_single (key : GroupKey) (rules : List GlyphRule) :
    (if rules.any (GlyphRule.isOf key) then [key] else []).map (ofKey rules) =
      match rules.filter (GlyphRule.isOf key) with
      | [] => []
      | shared => [key.group shared] := by
  cases hshared : rules.filter (GlyphRule.isOf key) with
  | nil =>
    have hany : rules.any (GlyphRule.isOf key) = false := by simpa using hshared
    rw [hany]
    rfl
  | cons r rest =>
    have hr : r ∈ rules.filter (GlyphRule.isOf key) := by rw [hshared]; exact List.mem_cons_self
    have hany : rules.any (GlyphRule.isOf key) = true :=
      List.any_eq_true.mpr ⟨r, List.mem_filter.mp hr⟩
    rw [hany, if_pos rfl, List.map_singleton, ofKey, hshared]

theorem wholeGroups_eq (rules : List GlyphRule) :
    wholeGroups rules = (wholeKeys rules).map (ofKey rules) := by
  have hrules : rules.filter (GlyphRule.isOf .whole) =
      rules.filter fun r => r.wholePattern?.isSome := by
    apply List.filter_congr
    intro r _
    rw [Bool.eq_iff_iff, GlyphRule.isOf_whole, Option.isSome_iff_exists]
  rw [wholeKeys, map_ofKey_single, hrules]
  rfl

theorem namedCleanups_eq (rules : List GlyphRule) :
    namedCleanups rules = (namedKeys rules).map (ofKey rules) := by
  change (groupByKey precedes Prod.fst
    (keyed GlyphRule.group (rules.filter GlyphRule.isCleanup))).map _ = _
  unfold namedKeys groupByKey
  rw [List.map_map, List.map_map, map_fst_keyed]
  congr 1
  funext id
  have hrules : rules.filter (GlyphRule.isOf (.cleanup (some id))) =
      (rules.filter GlyphRule.isCleanup).filter fun r => r.group.any fun g => g == id := by
    rw [List.filter_filter]
    apply List.filter_congr
    intro r _
    rw [Bool.eq_iff_iff, GlyphRule.isOf_cleanup]
    cases r.group <;> simp [and_comm]
  rw [Function.comp_apply, Function.comp_apply, ofKey, hrules, ← map_snd_filter_keyed]
  rfl

theorem otherCleanups_eq (rules : List GlyphRule) :
    otherCleanups rules = (otherKeys rules).map (ofKey rules) := by
  have hrules : rules.filter (GlyphRule.isOf (.cleanup none)) =
      rules.filter fun r => r.isCleanup && r.group.isNone := by
    apply List.filter_congr
    intro r _
    rw [Bool.eq_iff_iff, GlyphRule.isOf_cleanup, Bool.and_eq_true, Option.isNone_iff_eq_none]
  rw [otherKeys, map_ofKey_single, hrules]
  rfl

/-- Rules of one key make up one group each, except for those that take several passes. -/
theorem ofRules_eq (rules : List GlyphRule) :
    ofRules rules = (leadingKeys rules).map (ofKey rules) ++ passGroups rules ++
      (otherKeys rules).map (ofKey rules) := by
  simp only [ofRules, leadingKeys, List.map_append, adjacentGroups_eq, betweenGroups_eq,
    wholeGroups_eq, namedCleanups_eq, otherCleanups_eq]

theorem mem_adjacentKeys {side : Side} {key : GroupKey} :
    key ∈ adjacentKeys side rules ↔
      ∃ r ∈ rules, ∃ pattern, r.adjacentPattern? side = some pattern ∧ .beside side pattern = key := by
  unfold adjacentKeys
  simp only [List.mem_flatMap, mem_sortDistinct natBlt_connected, List.mem_map, List.mem_filterMap]
  constructor
  · rintro ⟨length, ⟨pattern, ⟨r, hr, hp⟩, rfl⟩, hkey⟩
    by_cases h1 : pattern.length = 1
    · rw [if_pos h1] at hkey
      obtain ⟨glyph, hglyph, rfl⟩ := List.mem_map.mp hkey
      obtain ⟨p, hp', hhead⟩ := List.mem_map.mp (mem_glyphSet.mp hglyph)
      obtain ⟨hp', hlen⟩ := List.mem_filter.mp hp'
      obtain ⟨r', hr', hp''⟩ := List.mem_filterMap.mp hp'
      refine ⟨r', hr', p, hp'', GroupKey.beside_eq_adjacent.mpr ⟨rfl, ?_⟩⟩
      rw [beq_iff_eq, h1] at hlen
      obtain ⟨g, rfl⟩ := List.length_eq_one_iff.mp hlen
      rw [← hhead]
      rfl
    · rw [if_neg h1] at hkey
      rw [List.mem_singleton.mp hkey]
      exact ⟨r, hr, pattern, hp, GroupKey.beside_eq_chain.mpr ⟨rfl, rfl, h1⟩⟩
  · rintro ⟨r, hr, pattern, hp, rfl⟩
    refine ⟨pattern.length, ⟨pattern, ⟨r, hr, hp⟩, rfl⟩, ?_⟩
    by_cases h1 : pattern.length = 1
    · obtain ⟨glyph, rfl⟩ := List.length_eq_one_iff.mp h1
      rw [if_pos h1]
      apply List.mem_map.mpr ⟨glyph, mem_glyphSet.mpr (List.mem_map.mpr ⟨[glyph], ?_, rfl⟩), rfl⟩
      exact List.mem_filter.mpr ⟨List.mem_filterMap.mpr ⟨r, hr, hp⟩, by simp⟩
    · rw [if_neg h1, List.mem_singleton]
      exact GroupKey.beside_eq_chain.mpr ⟨rfl, rfl, h1⟩

theorem mem_single {key key' : GroupKey} :
    key ∈ (if rules.any (GlyphRule.isOf key') then [key'] else []) ↔
      key = key' ∧ ∃ r ∈ rules, r.isOf key' = true := by
  rw [← List.any_eq_true]
  cases rules.any (GlyphRule.isOf key') <;> simp

/-- There is a group for the key of every rule that takes one pass. -/
theorem mem_keys {key : GroupKey} :
    key ∈ leadingKeys rules ++ otherKeys rules ↔ ∃ r ∈ rules, r.isOf key = true := by
  unfold leadingKeys betweenKeys wholeKeys namedKeys otherKeys
  simp only [List.mem_append, mem_adjacentKeys, mem_single, List.mem_map,
    mem_sortDistinct pairPrecedes_connected, mem_sortDistinct precedes_connected,
    List.mem_filterMap, List.mem_filter]
  constructor
  · rintro (((((⟨r, hr, pattern, hp, rfl⟩ | ⟨r, hr, pattern, hp, rfl⟩) | ⟨lengths, ⟨r, hr, hl⟩, rfl⟩) |
      ⟨rfl, hwhole⟩) | ⟨id, ⟨r, ⟨hr, hc⟩, hid⟩, rfl⟩) | ⟨rfl, hother⟩)
    · exact ⟨r, hr, GlyphRule.isOf_beside hp⟩
    · exact ⟨r, hr, GlyphRule.isOf_beside hp⟩
    · exact ⟨r, hr, GlyphRule.isOf_between.mpr hl⟩
    · exact hwhole
    · exact ⟨r, hr, GlyphRule.isOf_cleanup.mpr ⟨hc, hid⟩⟩
    · exact hother
  · rintro ⟨r, hr, hkey⟩
    cases key with
    | adjacent side glyph =>
      have hp := GlyphRule.isOf_adjacent.mp hkey
      cases side with
      | after => exact Or.inl (Or.inl (Or.inl (Or.inl (Or.inl ⟨r, hr, _, hp, rfl⟩))))
      | before => exact Or.inl (Or.inl (Or.inl (Or.inl (Or.inr ⟨r, hr, _, hp, rfl⟩))))
    | chain side length =>
      obtain ⟨pattern, hp, hlength⟩ := GlyphRule.isOf_chain.mp hkey
      have hb : GroupKey.beside side pattern = .chain side length :=
        GroupKey.beside_eq_chain.mpr ⟨rfl, hlength⟩
      cases side with
      | after => exact Or.inl (Or.inl (Or.inl (Or.inl (Or.inl ⟨r, hr, pattern, hp, hb⟩))))
      | before => exact Or.inl (Or.inl (Or.inl (Or.inl (Or.inr ⟨r, hr, pattern, hp, hb⟩))))
    | between first second =>
      have hl := GlyphRule.isOf_between.mp hkey
      exact Or.inl (Or.inl (Or.inl (Or.inr ⟨(first, second), ⟨r, hr, hl⟩, rfl⟩)))
    | whole => exact Or.inl (Or.inl (Or.inr ⟨rfl, r, hr, hkey⟩))
    | cleanup id =>
      obtain ⟨hc, hid⟩ := GlyphRule.isOf_cleanup.mp hkey
      cases id with
      | some id => exact Or.inl (Or.inr ⟨id, ⟨r, ⟨hr, hc⟩, hid⟩, rfl⟩)
      | none => exact Or.inr ⟨rfl, r, hr, hkey⟩

/-- A group holds the rules of a key that is there, or one rule that takes several passes. -/
theorem mem_ofRules {group : RuleGroup} :
    group ∈ ofRules rules ↔
      (∃ key, (∃ r ∈ rules, r.isOf key = true) ∧ group = ofKey rules key) ∨
        group ∈ passGroups rules := by
  simp only [ofRules_eq, ← mem_keys, List.mem_append, List.mem_map]
  constructor
  · rintro ((⟨key, hkey, rfl⟩ | hpass) | ⟨key, hkey, rfl⟩)
    · exact Or.inl ⟨key, Or.inl hkey, rfl⟩
    · exact Or.inr hpass
    · exact Or.inl ⟨key, Or.inr hkey, rfl⟩
  · rintro (⟨key, hkey | hkey, rfl⟩ | hpass)
    · exact Or.inl (Or.inl ⟨key, hkey, rfl⟩)
    · exact Or.inr ⟨key, hkey, rfl⟩
    · exact Or.inl (Or.inr hpass)

theorem mem_passGroups {group : RuleGroup} (h : group ∈ passGroups rules) :
    ∃ ordinal, ∃ r ∈ rules, r.takesPasses = true ∧ group = .multiPass ordinal r := by
  obtain ⟨⟨r, ordinal⟩, hr, rfl⟩ := List.mem_map.mp h
  obtain ⟨hmem, htakes⟩ := List.mem_filter.mp (List.fst_mem_of_mem_zipIdx hr)
  exact ⟨ordinal, r, hmem, htakes, rfl⟩

theorem ofKey_ne_multiPass (rules : List GlyphRule) (key : GroupKey) (ordinal : Nat)
    (r : GlyphRule) : ofKey rules key ≠ .multiPass ordinal r := by
  intro he
  rcases key with ⟨side, glyph⟩ | ⟨side, length⟩ | ⟨first, second⟩ | _ | (_ | id)
  · cases he
  · cases he
  · dsimp only [ofKey, GroupKey.group] at he
    split at he <;> cases he
  · cases he
  · cases he
  · cases he

/-- The group of a chain holds the rules of one length. -/
theorem chain_mem_ofRules {side : Side} {shared : List GlyphRule}
    (h : .chain side shared ∈ ofRules rules) :
    ∃ length, (∃ r ∈ rules, r.isOf (.chain side length) = true) ∧
      shared = rules.filter (GlyphRule.isOf (.chain side length)) := by
  rcases mem_ofRules.mp h with ⟨key, hsome, he⟩ | hpass
  · rcases key with ⟨side', glyph⟩ | ⟨side', length⟩ | ⟨first, second⟩ | _ | (_ | id)
    · cases he
    · obtain ⟨rfl, rfl⟩ := chain.inj he
      exact ⟨length, hsome, rfl⟩
    · dsimp only [ofKey, GroupKey.group] at he
      split at he <;> cases he
    · cases he
    · cases he
    · cases he
  · obtain ⟨ordinal, r, _, _, he⟩ := mem_passGroups hpass
    cases he

/-- The group of whole patterns is there for a rule that has one and takes one pass. -/
theorem whole_mem_ofRules {shared : List GlyphRule} (h : .whole shared ∈ ofRules rules) :
    ∃ r ∈ rules, r.isOf .whole = true := by
  rcases mem_ofRules.mp h with ⟨key, hsome, he⟩ | hpass
  · rcases key with ⟨side', glyph⟩ | ⟨side', length⟩ | ⟨first, second⟩ | _ | (_ | id)
    · cases he
    · cases he
    · dsimp only [ofKey, GroupKey.group] at he
      split at he <;> cases he
    · exact hsome
    · cases he
    · cases he
  · obtain ⟨ordinal, r, _, _, he⟩ := mem_passGroups hpass
    cases he

theorem rules_ofKey (rules : List GlyphRule) (key : GroupKey) :
    (ofKey rules key).rules = rules.filter (GlyphRule.isOf key) := by
  unfold ofKey
  rcases key with ⟨side, glyph⟩ | ⟨side, length⟩ | ⟨first, second⟩ | _ | (_ | id)
  · rfl
  · rfl
  · dsimp only [GroupKey.group]
    split <;> rfl
  · rfl
  · rfl
  · rfl

theorem rules_subset {group : RuleGroup} (h : group ∈ ofRules rules) : group.rules ⊆ rules := by
  rcases mem_ofRules.mp h with ⟨key, _, rfl⟩ | hpass
  · rw [rules_ofKey]
    exact fun r hr => (List.mem_filter.mp hr).1
  · obtain ⟨ordinal, r, hr, _, rfl⟩ := mem_passGroups hpass
    exact List.cons_subset.mpr ⟨hr, List.nil_subset rules⟩

end RuleGroup

end Metamorphosis
