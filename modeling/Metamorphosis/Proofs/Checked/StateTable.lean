import Metamorphosis.Proofs.Checked.Access
import Metamorphosis.Proofs.StateTable.BetweenChain
import Metamorphosis.Proofs.StateTable.WellFormed
import Metamorphosis.RuleGroup.Subtables
import Metamorphosis.StateTable.Pattern

namespace Metamorphosis

namespace Checked

open StateTable

/-- A table that has a state of a name, with the index of that state and the state itself. -/
def state (t : StateTable) (name : String) : Option (StateTable × Nat × State) :=
  match t.states.findIdx? fun s => s.name == name with
  | some i => do return (t, i, ← t.states[i]?)
  | none => do
    let t := { t with states := t.states ++ [{ name }] }
    let i ← Nat.psub t.states.length 1
    return (t, i, ← t.states[i]?)

/-- Route a class of a state, unless the class is not declared or the state routes it already. -/
def on (t : StateTable) (name className transition : String) : Option StateTable :=
  if t.hasClass className then do
    let (t, i, s) ← state t name
    if s.entries.any fun e => e.1 == className then return t
    else
      let routed := { s with entries := s.entries ++ [(className, transition)] }
      return { t with states := t.states.set i routed }
  else some t

def build (classes : List (String × List Glyph)) (states : List String) (routes : List Route)
    (transitions : List Transition) : Option StateTable := do
  let (t, _) ← state {} start
  let t ← states.foldlM (fun t name => (state t name).map Prod.fst) (t.addClasses classes)
  let t ← routes.foldlM (fun t r => on t r.state r.className r.transition) t
  return t.addTransitions transitions

theorem state_eq (t : StateTable) (name : String) :
    ∃ i s, state t name = some (t.addState name, i, s) ∧
      (t.addState name).states[i]? = some s ∧ s.name = name := by
  unfold state addState findState?
  cases hi : t.states.findIdx? fun s => s.name == name with
  | some i =>
    obtain ⟨hlt, hname, -⟩ := List.findIdx?_eq_some_iff_getElem.mp hi
    have hfound : (t.states.find? fun s => s.name == name).isSome = true :=
      List.find?_isSome.mpr ⟨t.states[i], List.getElem_mem hlt, hname⟩
    refine ⟨i, t.states[i], ?_, ?_, by simpa using hname⟩ <;> simp [hfound, hlt]
  | none =>
    have hmissing : (t.states.find? fun s => s.name == name).isSome = false := by
      simpa [List.findIdx?_eq_none_iff] using hi
    refine ⟨t.states.length, { name }, ?_, ?_, rfl⟩
    · simp [hmissing, Nat.psub_eq_sub]
    · simp [hmissing]

/-- Where names are unique, the state at an index is the one of its name. -/
theorem set_eq_map_entries {states : List State} (hn : (states.map State.name).Nodup) {i : Nat}
    {s : State} (hi : states[i]? = some s) (className transition : String) :
    states.set i { s with entries := s.entries ++ [(className, transition)] } =
      states.map fun x => if x.name == s.name
        then { x with entries := x.entries ++ [(className, transition)] } else x := by
  obtain ⟨hlt, rfl⟩ := List.getElem?_eq_some_iff.mp hi
  apply List.ext_getElem (by simp)
  intro j hj hj'
  rw [List.length_set] at hj
  rw [List.getElem_set, List.getElem_map]
  by_cases hij : i = j
  · subst hij
    simp
  · have hne : states[j].name ≠ states[i].name := by
      intro he
      have hmap : (states.map State.name)[i]? = (states.map State.name)[j]? := by simp [hlt, hj, he]
      exact hij ((List.getElem?_inj (by simpa using hlt) hn).mp hmap)
    simp [hij, hne]

theorem on_eq {t : StateTable} (h : t.WellFormed) (name className transition : String) :
    on t name className transition = some (t.addRoute name className transition) := by
  obtain ⟨i, s, hs, hi, rfl⟩ := state_eq t name
  have hwf := addState_wellFormed h s.name
  have hfind := hwf.findState?_eq_some (List.mem_of_getElem? hi)
  have hroute : t.route? s.name className = s.entries.lookup className := by
    rw [← route?_addState t s.name, route?, hfind, Option.bind_some]
  have hany : (s.entries.any fun e => e.1 == className) =
      (t.route? s.name className).isSome := by
    rw [hroute, Bool.eq_iff_iff, isSome_lookup]
    simp
  unfold on addRoute addRoute?
  rw [hs]
  cases hc : t.hasClass className with
  | false => simp
  | true =>
    cases hr : (t.route? s.name className).isSome with
    | true =>
      have hkeep : t.addState s.name = t := by
        unfold addState
        rw [if_pos]
        obtain ⟨transition, hr⟩ := Option.isSome_iff_exists.mp hr
        obtain ⟨found, hf, -⟩ := Option.bind_eq_some_iff.mp hr
        rw [hf, Option.isSome_some]
      simp [hany, hr, hkeep]
    | false =>
      simp [hany, hr, set_eq_map_entries hwf.states_nodup hi]

theorem build_eq (classes : List (String × List Glyph)) (states : List String)
    (routes : List Route) (transitions : List Transition) :
    build classes states routes transitions =
      some (StateTable.build classes states routes transitions) := by
  have hstate : ∀ t name, (state t name).map Prod.fst = some (t.addState name) := by
    intro t name
    obtain ⟨i, s, hs, -⟩ := state_eq t name
    rw [hs, Option.map_some]
  obtain ⟨i, s, hs, -⟩ := state_eq {} start
  have hnew : (({} : StateTable).addState start).addClasses classes = new.addClasses classes := rfl
  have hstates : states.foldlM (fun t name => (state t name).map Prod.fst) (new.addClasses classes) =
      some ((new.addClasses classes).addStates states) :=
    foldlM_eq_foldl (P := fun _ => True) (fun t _ name => ⟨hstate t name, trivial⟩) trivial states
  have hroutes : routes.foldlM (fun t r => on t r.state r.className r.transition)
      ((new.addClasses classes).addStates states) =
      some (((new.addClasses classes).addStates states).addRoutes routes) :=
    foldlM_eq_foldl (P := WellFormed)
      (fun t ht r => ⟨on_eq ht _ _ _, addRoute_wellFormed ht _ _ _⟩)
      (addStates_wellFormed (addClasses_wellFormed new_wellFormed classes) states) routes
  unfold build
  rw [hs]
  simp only [Option.bind_eq_bind, Option.bind_some, hnew, hstates, hroutes]
  rfl

/-- The names of the numbers from one on. -/
def namesTo (count : Nat) (name : Nat → String) : List String :=
  (List.range' 1 count).map name

def chainAfterRoutes (length : Nat) : Option (List Route) := do
  let contexts := namesTo length contextClass
  let saw := namesTo length sawContext
  let opening : Route := ⟨start, ← contexts[0]?, ← saw[0]?⟩
  let perState ← (List.range length).mapM fun i => do
    let advance : Route ←
      if i + 1 < length then do pure ⟨← saw[i]?, ← contexts[i + 1]?, ← saw[i + 1]?⟩
      else do pure ⟨← saw[i]?, "Target", "DoSubstitution"⟩
    return [advance, ⟨← saw[i]?, ← contexts[i]?, ← saw[i]?⟩,
      ⟨← saw[i]?, ← contexts[0]?, ← saw[0]?⟩]
  return opening :: perState.flatten

def chainBeforeRoutes (length : Nat) : Option (List Route) := do
  let contexts := namesTo length contextClass
  let saw := namesTo (length - 1) sawContext
  let perState ← ("SawTarget" :: saw).zipIdx.mapM fun (waiting, i) => do
    let next ← if i + 1 < length then saw[i]? else some "DoSubstitution"
    let advance : Route := ⟨waiting, ← contexts[i]?, next⟩
    let stay : List Route ←
      if 0 < i then do pure [⟨waiting, ← contexts[← Nat.psub i 1]?, waiting⟩] else pure []
    return advance :: stay ++ [⟨waiting, "Target", "MarkTarget"⟩]
  return ⟨start, "Target", "MarkTarget"⟩ :: perState.flatten

def betweenChainRoutes (n m : Nat) : Option (List Route) := do
  let firsts := namesTo n firstClass
  let sawFirsts := namesTo n sawFirst
  let seconds := namesTo m secondClass
  let sawSeconds := namesTo (m - 1) sawSecond
  let opening : Route := ⟨start, ← firsts[0]?, ← sawFirsts[0]?⟩
  let perState ← (sawFirsts ++ ["SawTarget"] ++ sawSeconds).zipIdx.mapM fun (waiting, k) => do
    let (className, next) ←
      if k + 1 < n then do pure (← firsts[k + 1]?, ← sawFirsts[k + 1]?)
      else if k + 1 = n then some ("Target", "MarkTarget")
      else do
        let j ← Nat.psub k n
        let next ← if j + 1 < m then sawSeconds[j]? else some "DoSubstitution"
        pure (← seconds[j]?, next)
    return [⟨waiting, className, next⟩, ⟨waiting, ← firsts[0]?, ← sawFirsts[0]?⟩]
  return opening :: perState.flatten

/-- The routes of a window of classes: each place leads to the next, and the first begins anew. -/
def windowRoutes (waiting step : Nat → String) (classes : List String) : Option (List Route) := do
  let opening : Route := ⟨start, ← classes[0]?, step 0⟩
  let perState ← (List.range' 1 (classes.length - 1)).mapM fun i => do
    return [⟨waiting i, ← classes[i]?, step i⟩, ⟨waiting i, ← classes[0]?, step 0⟩]
  return opening :: perState.flatten

@[simp] theorem getElem?_namesTo {name : Nat → String} {n i : Nat} (h : i < n) :
    (namesTo n name)[i]? = some (name (i + 1)) := by
  simp [namesTo, h, Nat.add_comm]

theorem namesTo_eq (n : Nat) (name : Nat → String) :
    namesTo n name = (List.range n).map fun i => name (i + 1) := by
  rw [namesTo, List.range'_eq_map_range, List.map_map]
  simp only [Function.comp_def, Nat.add_comm]

theorem zipIdx_namesTo (n : Nat) (name : Nat → String) :
    (namesTo n name).zipIdx = (List.range n).map fun i => (name (i + 1), i) := by
  rw [namesTo_eq, zipIdx_map_range]

theorem flatMap_numbered (f : Nat → List Route) (n : Nat) :
    (List.range' 1 n).flatMap f = ((List.range n).map fun i => f (i + 1)).flatten := by
  rw [List.range'_eq_map_range, List.flatMap_map, List.flatMap_def]
  simp only [Nat.add_comm]

theorem chainAfterRoutes_eq {length : Nat} (h : 0 < length) :
    chainAfterRoutes length = some (StateTable.chainAfterRoutes length) := by
  unfold chainAfterRoutes StateTable.chainAfterRoutes
  simp only [getElem?_namesTo h, flatMap_numbered]
  rw [mapM_eq_map]
  · rfl
  · intro i hi
    have hlt := List.mem_range.mp hi
    by_cases hnext : i + 1 < length <;> simp [hlt, hnext]

/-- The states that have seen the target, by how many context positions follow it. -/
theorem zipIdx_awaiting {length : Nat} (h : 0 < length) :
    ("SawTarget" :: namesTo (length - 1) sawContext).zipIdx =
      (List.range length).map fun i => (awaiting i, i) := by
  obtain ⟨n, rfl⟩ : ∃ n, length = n + 1 := ⟨length - 1, by omega⟩
  have hnames : "SawTarget" :: namesTo n sawContext = (List.range (n + 1)).map awaiting := by
    rw [namesTo_eq, List.range_succ_eq_map, List.map_cons, List.map_map]
    rfl
  rw [Nat.add_sub_cancel, hnames, zipIdx_map_range]

theorem chainBeforeRoutes_eq {length : Nat} (h : 0 < length) :
    chainBeforeRoutes length = some (StateTable.chainBeforeRoutes length) := by
  unfold chainBeforeRoutes StateTable.chainBeforeRoutes
  simp only [zipIdx_awaiting h, List.flatMap_def]
  rw [List.mapM_map, mapM_eq_map]
  · rfl
  · intro i hi
    have hlt := List.mem_range.mp hi
    dsimp only [Function.comp]
    by_cases hnext : i + 1 < length
    · have hsaw : i < length - 1 := by omega
      rw [if_pos hnext, if_pos hnext]
      cases i with
      | zero => simp [hlt, hsaw]
      | succ j => simp [hlt, hsaw, show j < length by omega]
    · rw [if_neg hnext, if_neg hnext]
      cases i with
      | zero => simp [hlt]
      | succ j => simp [hlt, show j < length by omega]

theorem betweenChainRoutes_eq {n m : Nat} (hn : 0 < n) (hm : 0 < m) :
    betweenChainRoutes n m = some (StateTable.betweenChainRoutes n m) := by
  have hstates : namesTo n sawFirst ++ ["SawTarget"] ++ namesTo (m - 1) sawSecond =
      namesTo (n + m) (betweenState n) := betweenStates_eq hm
  unfold betweenChainRoutes StateTable.betweenChainRoutes
  simp only [getElem?_namesTo hn, hstates, betweenStates_eq hm, betweenAdvances_eq hn,
    zipIdx_namesTo, List.zip_map', List.flatMap_map, flatMap_numbered]
  rw [List.mapM_map, mapM_eq_map]
  · rfl
  · intro k hk
    have hlt := List.mem_range.mp hk
    simp only [betweenClass, betweenStep]
    by_cases hfirst : k + 1 < n
    · simp [hfirst]
    · by_cases htarget : k + 1 = n
      · simp [htarget]
      · obtain ⟨j, rfl⟩ : ∃ j, k = n + j := ⟨k - n, by omega⟩
        have hj : j < m := by omega
        have hplace : n + j + 1 - n = j + 1 := by omega
        have hlast : n + j + 1 < n + m ↔ j + 1 < m := by omega
        by_cases hnext : j + 1 < m
        · have hsaw : j < m - 1 := by omega
          simp [hfirst, htarget, hj, hplace, hlast, hnext, hsaw, Nat.psub_eq_sub]
        · simp [hfirst, htarget, hj, hplace, hlast, hnext, Nat.psub_eq_sub]

theorem windowRoutes_eq {waiting step : Nat → String} {classes : List String} (h : classes ≠ []) :
    windowRoutes waiting step classes =
      some (⟨start, classes[0]?.getD "", step 0⟩ ::
        (List.range' 1 (classes.length - 1)).flatMap fun i =>
          [⟨waiting i, classes[i]?.getD "", step i⟩,
            ⟨waiting i, classes[0]?.getD "", step 0⟩]) := by
  have hzero : 0 < classes.length := List.length_pos_iff.mpr h
  have hclass : ∀ i, i < classes.length → classes[i]? = some (classes[i]?.getD "") := by
    intro i hi
    simp [hi]
  unfold windowRoutes
  rw [hclass 0 hzero, mapM_eq_map, List.flatMap_def]
  · rfl
  · intro i hi
    have hr := List.mem_range'_1.mp hi
    rw [hclass i (by omega), hclass 0 hzero]
    rfl

def adjacent (side : Side) (glyph : Glyph) (entries : List (Glyph × Glyph)) :
    Option StateTable := do
  let overlap := Overlap.of (entries.map Prod.fst) [glyph]
  let classes :=
    [("Context", overlap.contextOnly), ("Target", overlap.targetOnly),
      ("TrgtAndCntx", overlap.both)]
  let table ← match side with
    | .after => build classes ["SawContext"] afterRoutes (afterTransitions overlap.isOverlapping)
    | .before => build classes ["SawTarget"] beforeRoutes (beforeTransitions overlap.isOverlapping)
  return table.addSubstitution "Subst" entries

def chain (side : Side) (length : Nat) (patterns : List (List Glyph))
    (entries : List (Glyph × Glyph)) : Option StateTable := do
  let classes :=
    (positionGlyphs patterns length).zipIdx.map (fun (glyphs, i) => (contextClass (i + 1), glyphs)) ++
    [("Target", entries.map Prod.fst)]
  let table ← match side with
    | .after => do
      let routes ← chainAfterRoutes length
      build classes (namesTo length sawContext) routes (chainAfterTransitions length)
    | .before => do
      let routes ← chainBeforeRoutes length
      build classes ((List.range length).map awaiting) routes (chainBeforeTransitions length)
  return table.addSubstitution "Subst" entries

def between (firsts seconds : List Glyph) (entries : List (Glyph × Glyph)) : Option StateTable := do
  let targets := entries.map Prod.fst
  let glyphs := glyphSet (firsts ++ seconds ++ targets)
  let members (r : Role) : List Glyph :=
    glyphs.filter fun g => Role.of firsts seconds targets g == r
  let roles := Role.all.filter fun r => !(members r).isEmpty
  let steps := (Progress.reachable roles).flatMap fun p =>
    (p.moves roles).map fun (r, m) => (p, r, m)
  let table ← build (roles.map fun r => (r.className, members r))
    ((Progress.reachable roles).map Progress.stateName)
    (steps.map fun (p, r, m) => ⟨p.stateName, r.className, m.transitionName⟩)
    (steps.map fun (_, _, m) => m.transition)
  return table.addSubstitution "Subst" entries

/-- Put the glyph that a context has at index `i` to the position at that index. -/
def fill (i : Nat) (positions : List MatchPosition) (context : List Glyph) :
    Option (List MatchPosition) := do
  let p ← positions[i]?
  return positions.set i { p with glyphs := glyphSet (p.glyphs ++ context[i]?.toList) }

/-- The positions before the target, each added without glyphs and then filled. -/
def firstPositions (n : Nat) (contexts : List (List Glyph)) : Option (List MatchPosition) :=
  (namesTo n firstClass).zipIdx.foldlM
    (fun positions (name, i) => contexts.foldlM (fill i) (positions ++ [⟨name, []⟩])) []

def betweenPositions (n m : Nat) (sides : List (List Glyph × List Glyph)) (targets : List Glyph) :
    Option (List MatchPosition) := do
  let firsts ← firstPositions n (sides.map Prod.fst)
  return firsts ++ [⟨"Target", glyphSet targets⟩] ++
    (positionGlyphs (sides.map Prod.snd) m).zipIdx.map
      (fun (glyphs, i) => ⟨secondClass (i + 1), glyphSet glyphs⟩)

def betweenChain (n m : Nat) (positions : List MatchPosition) (entries : List (Glyph × Glyph)) :
    Option StateTable := do
  let routes ← betweenChainRoutes n m
  let table ← build (positions.map fun p => (p.className, p.glyphs)) (betweenStates n m) routes
    (betweenChainTransitions n m)
  return table.addSubstitution "Subst" entries

def wholeTransitions (length target : Nat) : Option (List Transition) := do
  let last ← Nat.psub length 1
  return (List.range last).map (fun i =>
      ⟨wholeStep length target i, matched (i + 1), if i = target then [.markGlyph] else []⟩) ++
    [⟨"DoSubstitution", start,
      [if target + 1 = length then .substituteCurrent "Subst" else .substituteMarked "Subst"]⟩]

def whole (length target : Nat) (patterns : List (List Glyph)) (entries : List (Glyph × Glyph)) :
    Option StateTable := do
  let transitions ← wholeTransitions length target
  let table ← build
    ((positionGlyphs patterns length).zipIdx.map fun (glyphs, i) => (positionClass (i + 1), glyphs))
    (namesTo (length - 1) matched)
    (wholeRoutes length (fun i => positionClass (i + 1)) (wholeStep length target))
    transitions
  return table.addSubstitution "Subst" entries

def marking (pattern : List Glyph) (marked : List Nat) (entries : List (Glyph × Glyph)) :
    Option StateTable := do
  let length := pattern.length
  let routes ← windowRoutes matched (markingStep length marked) (pattern.map (placeClass pattern))
  let table ← build (placeClasses pattern) (namesTo (length - 1) matched) routes
    (markingTransitions length marked)
  return table.addSubstitution "MarkTemps" entries

def rearrangement (w : Window) : Option StateTable := do
  let length := w.before.length
  let routes ← windowRoutes saw (rearrangementStep length) (w.before.map (placeClass w.before))
  build (placeClasses w.before) (namesTo (length - 1) saw) routes
    (rearrangementTransitions length w.verb)

theorem adjacent_eq (side : Side) (glyph : Glyph) (entries : List (Glyph × Glyph)) :
    adjacent side glyph entries = some (StateTable.adjacent side glyph entries) := by
  cases side <;> simp only [adjacent, build_eq] <;> rfl

theorem chain_eq (side : Side) {length : Nat} (h : 0 < length) (patterns : List (List Glyph))
    (entries : List (Glyph × Glyph)) :
    chain side length patterns entries = some (StateTable.chain side length patterns entries) := by
  cases side <;> simp only [chain, chainAfterRoutes_eq h, chainBeforeRoutes_eq h,
    Option.bind_eq_bind, Option.bind_some, build_eq] <;> rfl

theorem between_eq (firsts seconds : List Glyph) (entries : List (Glyph × Glyph)) :
    between firsts seconds entries = some (StateTable.between firsts seconds entries) := by
  simp only [between, build_eq]
  rfl

/-- The last position, where it is the one at index `i`, takes in the glyphs of all contexts. -/
theorem foldlM_fill (filled : List MatchPosition) (name : String) (contexts : List (List Glyph))
    (glyphs : List Glyph) :
    contexts.foldlM (fill filled.length) (filled ++ [⟨name, glyphSet glyphs⟩]) =
      some (filled ++ [⟨name,
        glyphSet (glyphs ++ contexts.filterMap fun context => context[filled.length]?)⟩]) := by
  induction contexts generalizing glyphs with
  | nil => simp
  | cons context rest ih =>
    have hset : glyphSet (glyphSet glyphs ++ context[filled.length]?.toList) =
        glyphSet (glyphs ++ context[filled.length]?.toList) :=
      glyphSet_congr fun g => by simp [mem_glyphSet]
    have hstep : fill filled.length (filled ++ [⟨name, glyphSet glyphs⟩]) context =
        some (filled ++ [⟨name, glyphSet (glyphs ++ context[filled.length]?.toList)⟩]) := by
      simp [fill, hset]
    rw [List.foldlM_cons, hstep]
    refine (ih _).trans ?_
    cases hg : context[filled.length]? <;> simp [hg]

theorem firstPositions_eq (n : Nat) (contexts : List (List Glyph)) :
    firstPositions n contexts =
      some ((List.range n).map fun i =>
        ⟨firstClass (i + 1), glyphSet (contexts.filterMap fun context => context[i]?)⟩) := by
  unfold firstPositions
  rw [zipIdx_namesTo]
  induction n with
  | zero => rfl
  | succ n ih =>
    have hfill := foldlM_fill ((List.range n).map fun i =>
      ⟨firstClass (i + 1), glyphSet (contexts.filterMap fun context => context[i]?)⟩)
      (firstClass (n + 1)) contexts []
    rw [List.length_map, List.length_range] at hfill
    rw [List.range_succ, List.map_append, List.map_append, List.foldlM_append, ih]
    exact (bind_pure _).trans hfill

theorem betweenPositions_eq (n m : Nat) (sides : List (List Glyph × List Glyph))
    (targets : List Glyph) :
    betweenPositions n m sides targets =
      some (StateTable.betweenPositions n m sides targets) := by
  simp only [betweenPositions, StateTable.betweenPositions, firstPositions_eq, positionGlyphs,
    zipIdx_map_range, List.map_map]
  rfl

theorem betweenChain_eq {n m : Nat} (hn : 0 < n) (hm : 0 < m) (positions : List MatchPosition)
    (entries : List (Glyph × Glyph)) :
    betweenChain n m positions entries =
      some (StateTable.betweenChain n m positions entries) := by
  simp only [betweenChain, betweenChainRoutes_eq hn hm, Option.bind_eq_bind, Option.bind_some,
    build_eq]
  rfl

theorem whole_eq {length : Nat} (h : 0 < length) (target : Nat) (patterns : List (List Glyph))
    (entries : List (Glyph × Glyph)) :
    whole length target patterns entries =
      some (StateTable.whole length target patterns entries) := by
  simp only [whole, wholeTransitions, Nat.psub_eq_sub h, Option.bind_eq_bind, Option.bind_some,
    build_eq]
  rfl

theorem marking_eq {pattern : List Glyph} (h : pattern ≠ []) (marked : List Nat)
    (entries : List (Glyph × Glyph)) :
    marking pattern marked entries = some (StateTable.marking pattern marked entries) := by
  have hclasses : pattern.map (placeClass pattern) ≠ [] := by simpa using h
  simp only [marking, windowRoutes_eq hclasses, Option.bind_eq_bind, Option.bind_some, build_eq,
    List.length_map, List.getElem?_map]
  rfl

theorem rearrangement_eq {w : Window} (h : w.before ≠ []) :
    rearrangement w = some (StateTable.rearrangement w) := by
  have hclasses : w.before.map (placeClass w.before) ≠ [] := by simpa using h
  simp only [rearrangement, windowRoutes_eq hclasses, Option.bind_eq_bind, Option.bind_some,
    build_eq, List.length_map, List.getElem?_map]
  rfl

/-- A pattern without glyphs has no class to begin with. -/
example : marking [] [] [] = none := rfl

end Checked

end Metamorphosis
