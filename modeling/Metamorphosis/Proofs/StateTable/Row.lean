import Metamorphosis.Proofs.StateTable.Chain
import Metamorphosis.Proofs.StateTable.Run

namespace Metamorphosis

namespace StateTable

/-- What is matched after a glyph at a position; a row that is over begins anew. -/
def matchedAfter (length j : Nat) : Nat :=
  if j + 1 = length then 0 else j + 1

theorem matchedAfter_lt {length j : Nat} (hj : j < length) : matchedAfter length j < length := by
  unfold matchedAfter
  split <;> omega

/-- Numbered states are told apart from each other and from the start. -/
theorem numberedState_injective {name : String} (hname : ∀ k, numbered name k ≠ start) {i j : Nat}
    (h : (if i = 0 then start else numbered name i) =
      if j = 0 then start else numbered name j) : i = j := by
  split at h <;> split at h
  next => omega
  next => exact absurd h.symm (hname j)
  next => exact absurd h (hname i)
  next => exact numbered_injective h

section Progress

variable {positions : List (List Glyph)} {targets run : List Glyph} {n j : Nat}

/-- The position that a glyph takes after the first `k`: it goes on with the match or begins one
anew. -/
def rowHit? (positions : List (List Glyph)) (k : Nat) (g : Glyph) : Option Nat :=
  (placeOf? positions g).filter fun j => decide (j = k ∨ j = 0)

theorem rowHit?_eq_some {k : Nat} {g : Glyph} :
    rowHit? positions k g = some j ↔ placeOf? positions g = some j ∧ (j = k ∨ j = 0) := by
  rw [rowHit?, Option.filter_eq_some_iff, decide_eq_true_iff]

theorem rowHit?_of_place {k : Nat} {g : Glyph} (hp : placeOf? positions g = some j) :
    rowHit? positions k g = if j = k ∨ j = 0 then some j else none := by
  rw [rowHit?, hp, Option.filter_some]
  simp only [decide_eq_true_iff]

/-- How many positions are matched after the first `n` glyphs of a run. -/
def rowProgress (positions : List (List Glyph)) (run : List Glyph) : Nat → Nat
  | 0 => 0
  | n + 1 => ((run[n]?.bind (rowHit? positions (rowProgress positions run n))).map
      (matchedAfter positions.length)).getD 0

/-- The position that the glyph at an index of a run takes. -/
def placeAt? (positions : List (List Glyph)) (run : List Glyph) (n : Nat) : Option Nat :=
  run[n]?.bind (rowHit? positions (rowProgress positions run n))

theorem rowProgress_succ :
    rowProgress positions run (n + 1) =
      ((placeAt? positions run n).map (matchedAfter positions.length)).getD 0 := rfl

theorem placeAt?_lt (h : placeAt? positions run n = some j) : j < positions.length := by
  obtain ⟨g, _, hhit⟩ := Option.bind_eq_some_iff.mp h
  exact placeOf?_lt (rowHit?_eq_some.mp hhit).1

theorem rowProgress_lt (hl : 0 < positions.length) (run : List Glyph) (n : Nat) :
    rowProgress positions run n < positions.length := by
  cases n with
  | zero => exact hl
  | succ n =>
    rw [rowProgress_succ]
    cases hp : placeAt? positions run n with
    | none => exact hl
    | some j => exact matchedAfter_lt (placeAt?_lt hp)

theorem rowProgress_succ_eq (hj : j + 1 < positions.length) :
    rowProgress positions run (n + 1) = j + 1 ↔ placeAt? positions run n = some j := by
  rw [rowProgress_succ]
  cases placeAt? positions run n with
  | none => simp
  | some i =>
    rw [Option.map_some, Option.getD_some, Option.some.injEq, matchedAfter]
    split <;> omega

/-- The glyphs of a run from an index on stand in the first `k` positions, one in each. -/
def StandsAt (positions : List (List Glyph)) (run : List Glyph) (first k : Nat) : Prop :=
  ∀ j, j < k → ∃ p ∈ positions[j]?, ∃ g ∈ run[first + j]?, g ∈ p

instance (positions : List (List Glyph)) (run : List Glyph) (first k : Nat) :
    Decidable (StandsAt positions run first k) :=
  inferInstanceAs (Decidable (∀ j, j < k → ∃ p ∈ positions[j]?, ∃ g ∈ run[first + j]?, g ∈ p))

theorem standsAt_zero (first : Nat) : StandsAt positions run first 0 :=
  fun _ hj => absurd hj (Nat.not_lt_zero _)

theorem standsAt_succ {first k : Nat} :
    StandsAt positions run first (k + 1) ↔
      StandsAt positions run first k ∧ ∃ p ∈ positions[k]?, ∃ g ∈ run[first + k]?, g ∈ p :=
  Nat.forall_lt_succ_right

theorem StandsAt.mono {first k l : Nat} (h : StandsAt positions run first l) (hkl : k ≤ l) :
    StandsAt positions run first k :=
  fun j hj => h j (by omega)

/-- The glyph at an index takes a position exactly if the row stands up to it, provided that this is
how far the match was before it. -/
theorem placeAt?_iff_of_progress (ha : Apart positions targets)
    (hbefore : ∀ k, 0 < k → k < positions.length →
      (rowProgress positions run n = k ↔ ∃ first, first + k = n ∧ StandsAt positions run first k)) :
    placeAt? positions run n = some j ↔
      ∃ first, first + j = n ∧ StandsAt positions run first (j + 1) := by
  unfold placeAt?
  rw [Option.bind_eq_some_iff]
  constructor
  · rintro ⟨g, hg, hhit⟩
    obtain ⟨hplace, hj⟩ := rowHit?_eq_some.mp hhit
    obtain ⟨p, hp, hgp⟩ := (placeOf?_eq_some ha).mp hplace
    have hbegun : ∃ first, first + j = n ∧ StandsAt positions run first j := by
      by_cases h0 : j = 0
      · exact ⟨n, by omega, h0 ▸ standsAt_zero n⟩
      · exact (hbefore j (by omega) (placeOf?_lt hplace)).mp (by omega)
    obtain ⟨first, rfl, hs⟩ := hbegun
    exact ⟨first, rfl, standsAt_succ.mpr ⟨hs, p, hp, g, hg, hgp⟩⟩
  · rintro ⟨first, rfl, hs⟩
    obtain ⟨hbegun, p, hp, g, hg, hgp⟩ := standsAt_succ.mp hs
    have hplace := (placeOf?_eq_some ha).mpr ⟨p, hp, hgp⟩
    refine ⟨g, hg, rowHit?_eq_some.mpr ⟨hplace, ?_⟩⟩
    by_cases h0 : j = 0
    · exact Or.inr h0
    · have hprogress := (hbefore j (by omega) (placeOf?_lt hplace)).mpr ⟨first, rfl, hbegun⟩
      exact Or.inl hprogress.symm

/-- What is matched is the beginning of the row that the glyphs before an index stand in. -/
theorem rowProgress_iff (ha : Apart positions targets) {k : Nat} (hk : 0 < k)
    (hlt : k < positions.length) :
    rowProgress positions run n = k ↔
      ∃ first, first + k = n ∧ StandsAt positions run first k := by
  induction n generalizing k with
  | zero =>
    constructor
    · intro h
      rw [rowProgress] at h
      omega
    · rintro ⟨first, hfirst, _⟩
      omega
  | succ n ih =>
    obtain ⟨j, rfl⟩ : ∃ j, k = j + 1 := ⟨k - 1, by omega⟩
    rw [rowProgress_succ_eq hlt, placeAt?_iff_of_progress ha fun k => ih]
    simp only [← Nat.add_assoc, Nat.add_right_cancel_iff]

theorem placeAt?_eq_some (ha : Apart positions targets) :
    placeAt? positions run n = some j ↔
      ∃ first, first + j = n ∧ StandsAt positions run first (j + 1) :=
  placeAt?_iff_of_progress ha fun _ => rowProgress_iff ha

/-- A position is taken at an index exactly if the row up to it stands before and at the index. -/
theorem any_placeAt?_iff (ha : Apart positions targets) {k : Nat} :
    (placeAt? positions run n).any (fun j => decide (j = k)) = true ↔
      k ≤ n ∧ StandsAt positions run (n - k) (k + 1) := by
  have hany : (placeAt? positions run n).any (fun j => decide (j = k)) = true ↔
      placeAt? positions run n = some k := by
    cases placeAt? positions run n <;> simp
  rw [hany, placeAt?_eq_some ha]
  constructor
  · rintro ⟨first, rfl, hs⟩
    rw [Nat.add_sub_cancel]
    exact ⟨Nat.le_add_left k first, hs⟩
  · rintro ⟨hk, hs⟩
    exact ⟨n - k, Nat.sub_add_cancel hk, hs⟩

end Progress

/-- In the state after `k` positions the table takes the transition of the position that a glyph
takes, and each transition leads to the state after its position. -/
structure MatchesRow (t : StateTable) (positions : List (List Glyph)) (state : Nat → String)
    (transition : Nat → Transition) : Prop where
  start_eq : state 0 = start
  next_eq : ∀ j, j < positions.length →
    (transition j).next = state (matchedAfter positions.length j)
  next?_eq : ∀ k, k < positions.length → ∀ g,
    t.next? (state k) g = (rowHit? positions k g).map transition

section Build

variable {positions : List (List Glyph)} {targets : List Glyph}
  {classes : List (String × List Glyph)} {states : List String} {routes : List Route}
  {transitions : List Transition} {state className : Nat → String} {transition : Nat → Transition}

/-- A class for each position tells the place of a glyph. -/
theorem classOf?_row (ha : Apart positions targets)
    (hclasses : ∀ name members, (name, members) ∈ classes ↔
      ∃ j, positions[j]? = some members ∧ name = className j) (g : Glyph) :
    (build classes states routes transitions).classOf? g =
      (placeOf? positions g).map className := by
  have hholds : ∀ name, (build classes states routes transitions).Holds name g ↔
      ∃ j, placeOf? positions g = some j ∧ name = className j := by
    intro name
    rw [holds_build]
    constructor
    · rintro ⟨members, hm, hg⟩
      obtain ⟨j, hj, hn⟩ := (hclasses name members).mp hm
      exact ⟨j, (placeOf?_eq_some ha).mpr ⟨members, hj, hg⟩, hn⟩
    · rintro ⟨j, hj, hn⟩
      obtain ⟨p, hp, hg⟩ := (placeOf?_eq_some ha).mp hj
      exact ⟨p, (hclasses name p).mpr ⟨j, hp, hn⟩, hg⟩
  cases hp : placeOf? positions g with
  | none =>
    apply classOf?_eq_none
    intro name hname
    obtain ⟨j, hj, _⟩ := (hholds name).mp hname
    rw [hp] at hj
    cases hj
  | some j =>
    apply classOf?_eq_some ((hholds _).mpr ⟨j, hp, rfl⟩)
    intro other hother
    obtain ⟨i, hi, rfl⟩ := (hholds other).mp hother
    rw [Option.some.inj (hi.symm.trans hp)]

/-- Of the routes that go on from each state and begin anew from all, the one for a class is found
where it goes on or begins anew. -/
theorem find?_row {length : Nat} {step : Nat → String}
    (hroutes : ∀ r, r ∈ routes ↔
      ∃ i j, i < length ∧ (j = i ∨ j = 0) ∧ r = ⟨state i, className j, step j⟩)
    (hstate : ∀ i j, i < length → j < length → state i = state j → i = j)
    (hclass : ∀ i j, i < length → j < length → className i = className j → i = j)
    {k j : Nat} (hk : k < length) (hj : j < length) :
    routes.find? (fun r => r.state == state k && r.className == className j) =
      if j = k ∨ j = 0 then some ⟨state k, className j, step j⟩ else none := by
  apply find?_eq_ite
  · exact fun h => (hroutes _).mpr ⟨k, j, hk, h, rfl⟩
  · simp
  · intro r hr hp
    simp only [Bool.and_eq_true, beq_iff_eq] at hp
    obtain ⟨i, j', hi, hj', rfl⟩ := (hroutes r).mp hr
    obtain rfl := hstate i k hi hk hp.1
    obtain rfl := hclass j' j (by omega) hj hp.2
    exact ⟨hj', rfl⟩

/-- Routes that go on from each state and begin anew from all, as they are listed. -/
theorem mem_rowRoutes (className later step : Nat → String) {length : Nat} (hl : 0 < length)
    {r : Route} :
    r ∈ (⟨start, className 0, step 0⟩ :: (List.range' 1 (length - 1)).flatMap fun i =>
        [⟨later i, className i, step i⟩, ⟨later i, className 0, step 0⟩] : List Route) ↔
      ∃ i j, i < length ∧ (j = i ∨ j = 0) ∧
        r = ⟨if i = 0 then start else later i, className j, step j⟩ := by
  simp only [List.mem_cons, List.mem_flatMap, List.mem_range'_1, List.not_mem_nil, or_false]
  constructor
  · rintro (rfl | ⟨i, hi, rfl | rfl⟩)
    · exact ⟨0, 0, hl, Or.inl rfl, rfl⟩
    · exact ⟨i, i, by omega, Or.inl rfl, by rw [if_neg (by omega)]⟩
    · exact ⟨i, 0, by omega, Or.inr rfl, by rw [if_neg (by omega)]⟩
  · rintro ⟨i, j, hi, hj, rfl⟩
    by_cases h0 : i = 0
    · have hj0 : j = 0 := by omega
      exact Or.inl (by rw [if_pos h0, hj0])
    · rw [if_neg h0]
      refine Or.inr ⟨i, by omega, ?_⟩
      rcases hj with rfl | rfl
      · exact Or.inl rfl
      · exact Or.inr rfl

theorem find?_rowTransitions {length : Nat}
    (htransitions : ∀ tr, tr ∈ transitions ↔ ∃ j, j < length ∧ tr = transition j)
    (hname : ∀ i j, i < length → j < length → (transition i).name = (transition j).name → i = j)
    {j : Nat} (hj : j < length) :
    transitions.find? (fun tr => tr.name == (transition j).name) = some (transition j) := by
  apply find?_eq_some_of_unique ((htransitions _).mpr ⟨j, hj, rfl⟩) (by simp)
  intro tr htr hn
  obtain ⟨i, hi, rfl⟩ := (htransitions tr).mp htr
  rw [hname i j hi hj (beq_iff_eq.mp hn)]

/-- A table with a class for each position, routes that go on and begin anew, and a transition for
each position. -/
theorem matchesRow_build (ha : Apart positions targets) (hstart : state 0 = start)
    (hclasses : ∀ name members, (name, members) ∈ classes ↔
      ∃ j, positions[j]? = some members ∧ name = className j)
    (hroutes : ∀ r, r ∈ routes ↔ ∃ i j, i < positions.length ∧ (j = i ∨ j = 0) ∧
      r = ⟨state i, className j, (transition j).name⟩)
    (hstate : ∀ i j, i < positions.length → j < positions.length → state i = state j → i = j)
    (hclass : ∀ i j, i < positions.length → j < positions.length →
      className i = className j → i = j)
    (htransition : ∀ j, j < positions.length →
      transitions.find? (fun tr => tr.name == (transition j).name) = some (transition j))
    (hnext : ∀ j, j < positions.length →
      (transition j).next = state (matchedAfter positions.length j)) :
    (build classes states routes transitions).MatchesRow positions state transition := by
  refine ⟨hstart, hnext, ?_⟩
  intro k hk g
  rw [next?_build, classOf?_row ha hclasses]
  cases hp : placeOf? positions g with
  | none =>
    rw [rowHit?, hp]
    rfl
  | some j =>
    have hj := placeOf?_lt hp
    rw [Option.map_some, Option.bind_some, find?_row hroutes hstate hclass hk hj, rowHit?_of_place hp]
    split
    next => rw [Option.bind_some, htransition j hj, Option.map_some]
    next => rfl

theorem MatchesRow.addSubstitution {t : StateTable} (h : t.MatchesRow positions state transition)
    (name : String) (entries : List (Glyph × Glyph)) :
    (t.addSubstitution name entries).MatchesRow positions state transition :=
  ⟨h.start_eq, h.next_eq, h.next?_eq⟩

end Build

section Windows

variable {window : List Glyph} {states : List String} {routes : List Route}
  {transitions : List Transition} {state : Nat → String} {transition : Nat → Transition}

theorem apart_window (hw : window.Nodup) : Apart (window.map fun g => [g]) [] :=
  apart_singletons hw fun _ _ => List.not_mem_nil

theorem getD_placeClass (hw : window.Nodup) {i : Nat} (hi : i < window.length) :
    (window[i]?.map (placeClass window)).getD "" = numbered "Position" (i + 1) := by
  rw [List.getElem?_eq_getElem hi, Option.map_some, Option.getD_some, placeClass,
    hw.idxOf_getElem i hi]

theorem mem_placeClasses (name : String) (members : List Glyph) :
    (name, members) ∈ placeClasses window ↔
      ∃ j : Nat, (window.map fun g => [g])[j]? = some members ∧
        name = (window[j]?.map (placeClass window)).getD "" := by
  unfold placeClasses
  rw [List.mem_map]
  constructor
  · rintro ⟨g, hg, he⟩
    obtain ⟨rfl, rfl⟩ := Prod.mk.inj he
    obtain ⟨j, hj⟩ := List.mem_iff_getElem?.mp hg
    exact ⟨j, by rw [List.getElem?_map, hj, Option.map_some], by rw [hj]; rfl⟩
  · rintro ⟨j, hj, rfl⟩
    rw [List.getElem?_map] at hj
    obtain ⟨g, hg, rfl⟩ := Option.map_eq_some_iff.mp hj
    exact ⟨g, List.mem_of_getElem? hg, by rw [hg]; rfl⟩

/-- A table with a class for each of some distinct glyphs matches them as a row. -/
theorem matchesRow_window (hw : window.Nodup) (hstart : state 0 = start)
    (hroutes : ∀ r, r ∈ routes ↔ ∃ i j, i < window.length ∧ (j = i ∨ j = 0) ∧
      r = ⟨state i, (window[j]?.map (placeClass window)).getD "", (transition j).name⟩)
    (hstate : ∀ i j, state i = state j → i = j)
    (htransition : ∀ j, j < window.length →
      transitions.find? (fun tr => tr.name == (transition j).name) = some (transition j))
    (hnext : ∀ j, j < window.length →
      (transition j).next = state (matchedAfter window.length j)) :
    (build (placeClasses window) states routes transitions).MatchesRow
      (window.map fun g => [g]) state transition := by
  have hl : (window.map fun g => [g]).length = window.length := List.length_map _
  have hclass : ∀ i j, i < window.length → j < window.length →
      (window[i]?.map (placeClass window)).getD "" =
        (window[j]?.map (placeClass window)).getD "" → i = j := by
    intro i j hi hj he
    rw [getD_placeClass hw hi, getD_placeClass hw hj] at he
    have hn := numbered_injective he
    omega
  rw [← hl] at hroutes htransition hnext hclass
  exact matchesRow_build (apart_window hw) hstart
    mem_placeClasses hroutes (fun i j _ _ => hstate i j) hclass htransition hnext

/-- The row of some glyphs stands where they do. -/
theorem standsAt_window {run : List Glyph} {first k : Nat} :
    StandsAt (window.map fun g => [g]) run first k ↔
      ∀ j, j < k → ∃ g, window[j]? = some g ∧ run[first + j]? = some g := by
  unfold StandsAt
  apply forall₂_congr
  intro j _
  rw [List.getElem?_map]
  cases window[j]? with
  | none => simp
  | some g => simp

theorem standsAt_window_all {run : List Glyph} {first : Nat} :
    StandsAt (window.map fun g => [g]) run first window.length ↔ window <+: run.drop first := by
  rw [standsAt_window, List.prefix_iff_getElem?]
  apply forall₂_congr
  intro j hj
  rw [List.getElem?_drop, List.getElem?_eq_getElem hj]
  simp

theorem standsAt_window_eq_take {run : List Glyph} {first k : Nat} (hk : k ≤ window.length) :
    StandsAt (window.map fun g => [g]) run first k ↔
      window.take k = (run.take (first + k)).drop first := by
  rw [standsAt_window, List.ext_getElem?_iff]
  simp only [List.getElem?_drop, List.getElem?_take, Nat.add_lt_add_iff_left]
  apply forall_congr'
  intro j
  by_cases hj : j < k
  · have hw : window[j]? = some window[j] := List.getElem?_eq_getElem (by omega)
    simp [hj, hw, eq_comm]
  · simp [hj]

/-- A beginning of the row stands before an index exactly if the run up to the index ends in it. -/
theorem exists_standsAt_window {run : List Glyph} {n k : Nat} (hk : k ≤ window.length)
    (hn : n ≤ run.length) :
    (∃ first, first + k = n ∧ StandsAt (window.map fun g => [g]) run first k) ↔
      window.take k <:+ run.take n := by
  simp only [standsAt_window_eq_take hk]
  constructor
  · rintro ⟨first, rfl, he⟩
    rw [he]
    exact List.drop_suffix first _
  · intro hs
    have hle := hs.length_le
    have he := List.suffix_iff_eq_drop.mp hs
    rw [List.length_take_of_le hk, List.length_take_of_le hn] at hle he
    exact ⟨n - k, Nat.sub_add_cancel hle, by rwa [Nat.sub_add_cancel hle]⟩

end Windows

namespace MatchesRow

variable {t : StateTable} {positions : List (List Glyph)} {targets run : List Glyph}
  {state : Nat → String} {transition : Nat → Transition}

/-- Reading the next glyph of a run leads to the state after the position that the glyph takes. -/
theorem reaction_at (h : t.MatchesRow positions state transition) (hl : 0 < positions.length)
    {n : Nat} {g : Glyph} (hg : run[n]? = some g) :
    t.reaction (state (rowProgress positions run n)) g =
      (state (rowProgress positions run (n + 1)),
        ((placeAt? positions run n).map fun j => (transition j).actions).getD []) := by
  have hplace : placeAt? positions run n =
      rowHit? positions (rowProgress positions run n) g := by
    rw [placeAt?, hg, Option.bind_some]
  rw [reaction, h.next?_eq _ (rowProgress_lt hl run n), ← hplace, rowProgress_succ]
  cases hp : placeAt? positions run n with
  | none => exact congrArg (·, []) h.start_eq.symm
  | some j => exact congrArg (·, _) (h.next_eq j (placeAt?_lt hp))

theorem state_headAfter (h : t.MatchesRow positions state transition) (hl : 0 < positions.length)
    {n : Nat} (hn : n ≤ run.length) :
    (t.headAfter run n).state = state (rowProgress positions run n) :=
  headAfter_state (fun n => state (rowProgress positions run n)) h.start_eq
    (fun _ _ hg => congrArg Prod.fst (h.reaction_at hl hg)) hn

/-- The transition taken at an index is that of the position that its glyph takes. -/
theorem transitionAt?_eq (h : t.MatchesRow positions state transition) (hl : 0 < positions.length)
    (n : Nat) :
    t.transitionAt? (t.headAfter run n) n = (placeAt? positions run n).map transition := by
  rw [transitionAt?_headAfter, placeAt?]
  cases hg : run[n]? with
  | none => rfl
  | some g =>
    have hn := (List.getElem?_eq_some_iff.mp hg).1
    rw [Option.bind_some, Option.bind_some, h.state_headAfter hl (Nat.le_of_lt hn),
      h.next?_eq _ (rowProgress_lt hl run n)]

end MatchesRow

/-- A table that rewrites the glyphs at some positions as it reads them. -/
theorem MatchesRow.run_current {t : StateTable} {positions : List (List Glyph)}
    {state : Nat → String} {transition : Nat → Transition} {table : String} {now : Nat → Bool}
    (h : t.MatchesRow positions state transition) (hl : 0 < positions.length)
    (hactions : ∀ j, j < positions.length →
      (transition j).actions = if now j then [.substituteCurrent table] else [])
    (run : List Glyph) :
    t.run run = run.mapIdx fun i g =>
      if (placeAt? positions run i).any now then t.replace table g else g := by
  apply run_of_substituteCurrent table (fun n => state (rowProgress positions run n))
    (fun n => (placeAt? positions run n).any now) h.start_eq
  intro n g hg
  rw [h.reaction_at hl hg]
  cases hp : placeAt? positions run n with
  | none => rfl
  | some j => rw [Option.map_some, Option.getD_some, hactions j (placeAt?_lt hp), Option.any_some]

section Marked

variable {positions : List (List Glyph)} {targets run : List Glyph} {target rest : Nat}

/-- The glyph at an index of a run takes position `j`. -/
def takesPlace (positions : List (List Glyph)) (run : List Glyph) (j n : Nat) : Bool :=
  decide (placeAt? positions run n = some j)

theorem takesPlace_iff (ha : Apart positions targets) {j n : Nat} :
    takesPlace positions run j n = true ↔
      ∃ first, first + j = n ∧ StandsAt positions run first (j + 1) := by
  rw [takesPlace, decide_eq_true_iff, placeAt?_eq_some ha]

/-- Where the row goes on behind the target, the glyph that stands at the position of the target is
the last one that took it. -/
theorem lastMark_row (ha : Apart positions targets) (hrest : 0 < rest) {first : Nat}
    (hs : StandsAt positions run first (target + rest)) :
    lastMark (takesPlace positions run target) (first + (target + rest)) =
      some (first + target) := by
  refine lastMark_eq_some.mpr ⟨by omega, ?_, ?_⟩
  · exact (takesPlace_iff ha).mpr ⟨first, rfl, hs.mono (by omega)⟩
  · intro j hj hlt
    rw [← Bool.not_eq_true, takesPlace_iff ha]
    rintro ⟨other, rfl, hother⟩
    -- the glyph would be at the position of the target and at a later one
    obtain ⟨p, hp, g, hg, hgp⟩ := hother target (Nat.lt_succ_self target)
    obtain ⟨q, hq, g', hg', hgq⟩ := hs (other + target - first) (by omega)
    rw [show first + (other + target - first) = other + target by omega] at hg'
    obtain rfl : g = g' := Option.some.inj (hg.symm.trans hg')
    have hsame := ha.unique hp hq hgp hgq
    omega

/-- When the row is over, the mark is on its target. -/
theorem lastMark_of_over (ha : Apart positions targets) (hrest : 0 < rest) {n : Nat}
    (h : takesPlace positions run (target + rest) n = true) :
    ∃ first, first + (target + rest) = n ∧
      StandsAt positions run first (target + rest + 1) ∧
      lastMark (takesPlace positions run target) n = some (first + target) := by
  obtain ⟨first, rfl, hs⟩ := (takesPlace_iff ha).mp h
  exact ⟨first, rfl, hs, lastMark_row ha hrest (hs.mono (Nat.le_succ _))⟩

/-- The marks that are rewritten when a row is over are the targets of the rows that stand in the
run. -/
theorem isRewritten_row (ha : Apart positions targets) (hrest : 0 < rest) (i : Nat) :
    isRewritten (takesPlace positions run target) (takesPlace positions run (target + rest))
        run.length i = true ↔
      target ≤ i ∧ StandsAt positions run (i - target) (target + rest + 1) := by
  rw [isRewritten_eq_true]
  constructor
  · rintro ⟨n, _, hover, hmark⟩
    obtain ⟨first, _, hs, hlast⟩ := lastMark_of_over ha hrest hover
    obtain rfl : first + target = i := Option.some.inj (hlast.symm.trans hmark)
    rw [Nat.add_sub_cancel]
    exact ⟨Nat.le_add_left target first, hs⟩
  · rintro ⟨hi, hs⟩
    obtain ⟨first, rfl⟩ : ∃ first, i = first + target := ⟨i - target, by omega⟩
    rw [Nat.add_sub_cancel] at hs
    obtain ⟨_, _, g, hg, _⟩ := hs (target + rest) (Nat.lt_succ_self _)
    exact ⟨first + (target + rest), (List.getElem?_eq_some_iff.mp hg).1,
      (takesPlace_iff ha).mpr ⟨first, rfl, hs⟩, lastMark_row ha hrest (hs.mono (Nat.le_succ _))⟩

/-- A table that marks the glyph at the position of the target and rewrites it when the row is over
gives the targets of the rows that stand in a run their replacements. -/
theorem MatchesRow.run_marked {t : StateTable} {state : Nat → String} {transition : Nat → Transition}
    {table : String} (h : t.MatchesRow positions state transition) (ha : Apart positions targets)
    (hrest : 0 < rest) (hl : positions.length = target + rest + 1)
    (hactions : ∀ j, j < positions.length → (transition j).actions =
      (if j = target + rest then [.substituteMarked table] else []) ++
        if j = target then [.markGlyph] else []) (run : List Glyph) :
    t.run run = run.mapIdx fun i g =>
      if target ≤ i ∧ StandsAt positions run (i - target) positions.length then t.replace table g
      else g := by
  rw [run_of_substituteMarked table (fun n => state (rowProgress positions run n))
    (takesPlace positions run target) (takesPlace positions run (target + rest)) h.start_eq]
  · simp only [isRewritten_row ha hrest, hl]
  · intro n g hg
    rw [h.reaction_at (by omega) hg, takesPlace, takesPlace]
    cases hp : placeAt? positions run n with
    | none => rfl
    | some j => simp [hactions j (placeAt?_lt hp)]
  · intro m n hmn hm hn he
    obtain ⟨first, rfl, _, hfirst⟩ := lastMark_of_over ha hrest hm
    obtain ⟨second, rfl, _, hsecond⟩ := lastMark_of_over ha hrest hn
    have hsame := Option.some.inj (hfirst.symm.trans (he.trans hsecond))
    omega

end Marked

end StateTable

end Metamorphosis
