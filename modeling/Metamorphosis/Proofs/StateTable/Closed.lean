import Metamorphosis.Proofs.StateTable.Adjacent
import Metamorphosis.Proofs.StateTable.Between
import Metamorphosis.Proofs.StateTable.BetweenChain
import Metamorphosis.Proofs.StateTable.ChainAfter
import Metamorphosis.Proofs.StateTable.ChainBefore
import Metamorphosis.Proofs.StateTable.Rearrangement
import Metamorphosis.Proofs.StateTable.WellFormed
import Metamorphosis.Proofs.StateTable.Whole

namespace Metamorphosis

/-- The substitution table an action names. -/
def Action.table? : Action → Option String
  | .substituteCurrent table => some table
  | .substituteMarked table => some table
  | _ => none

theorem Move.actions_name_subst (m : Move) :
    ∀ a ∈ m.actions, ∀ table ∈ a.table?, table ∈ ["Subst"] := by
  obtain ⟨commit, mark, first⟩ := m
  revert commit mark first
  decide

namespace StateTable

structure Closed (t : StateTable) : Prop extends WellFormed t where
  start_first : [start] <+: t.states.map State.name
  transition_defined : ∀ s ∈ t.states, ∀ e ∈ s.entries, e.2 ∈ t.transitions.map Transition.name
  next_declared : ∀ tr ∈ t.transitions, tr.next ∈ t.states.map State.name
  table_declared : ∀ tr ∈ t.transitions, ∀ a ∈ tr.actions, ∀ table ∈ a.table?,
    table ∈ t.substitutions.map SubstitutionTable.name

section Names

variable {t : StateTable}

theorem addState_names (t : StateTable) (name : String) :
    t.states.map State.name <+: (t.addState name).states.map State.name ∧
      name ∈ (t.addState name).states.map State.name := by
  unfold addState
  split
  next h =>
    obtain ⟨s, hs⟩ := Option.isSome_iff_exists.mp h
    have hn : s.name = name := by simpa using List.find?_some hs
    exact ⟨List.prefix_rfl, List.mem_map.mpr ⟨s, List.mem_of_find?_eq_some hs, hn⟩⟩
  next => simp

theorem addStates_names (t : StateTable) (names : List String) :
    t.states.map State.name <+: (t.addStates names).states.map State.name ∧
      ∀ name ∈ names, name ∈ (t.addStates names).states.map State.name := by
  unfold addStates
  induction names generalizing t with
  | nil => exact ⟨List.prefix_rfl, by simp⟩
  | cons n ns ih =>
    obtain ⟨hkept, hadded⟩ := addState_names t n
    obtain ⟨hrest, hnames⟩ := ih (t.addState n)
    refine ⟨hkept.trans hrest, ?_⟩
    intro name hname
    rcases List.mem_cons.mp hname with rfl | hname
    · exact hrest.subset hadded
    · exact hnames name hname

theorem addRoute_names (t : StateTable) (state className transition : String) :
    t.states.map State.name <+:
      (t.addRoute state className transition).states.map State.name := by
  rcases addRoute_states t state className transition with he | ⟨_, _, hstates⟩
  · rw [he]
  · have hnames : State.name ∘ withEntry state className transition = State.name :=
      funext fun s => withEntry_name state className transition s
    rw [hstates, List.map_map, hnames]
    exact (addState_names t state).1

theorem addRoutes_names (t : StateTable) (routes : List Route) :
    t.states.map State.name <+: (t.addRoutes routes).states.map State.name := by
  unfold addRoutes
  induction routes generalizing t with
  | nil => exact List.prefix_rfl
  | cons r rs ih => exact (addRoute_names t r.state r.className r.transition).trans (ih _)

/-- An entry of a state is what the state does at a class. -/
theorem WellFormed.route?_of_mem (h : t.WellFormed) {s : State} (hs : s ∈ t.states)
    {e : String × String} (he : e ∈ s.entries) : t.route? s.name e.1 = some e.2 := by
  rw [route?, h.findState?_eq_some hs, Option.bind_some]
  exact lookup_of_mem_nodup (h.routes_nodup s hs) he

/-- The transition of a name is the only one of that name. -/
theorem WellFormed.findTransition?_eq_some (h : t.WellFormed) {tr : Transition}
    (ht : tr ∈ t.transitions) : t.findTransition? tr.name = some tr := by
  apply find?_eq_some_of_unique ht (by simp)
  intro y hy hn
  exact List.inj_on_of_nodup_map h.transitions_nodup hy ht (by simpa using hn)

end Names

section Build

variable {classes : List (String × List Glyph)} {states : List String} {routes : List Route}
  {transitions : List Transition} {tables : List String}

theorem build_names (classes : List (String × List Glyph)) (states : List String)
    (routes : List Route) (transitions : List Transition) :
    [start] <+: (build classes states routes transitions).states.map State.name ∧
      ∀ name ∈ states,
        name ∈ (build classes states routes transitions).states.map State.name := by
  unfold build
  obtain ⟨hkept, hadded⟩ := addStates_names (new.addClasses classes) states
  have hroutes := addRoutes_names ((new.addClasses classes).addStates states) routes
  rw [(addClasses_frame new classes).1] at hkept
  rw [(addTransitions_frame _ transitions).2.1]
  exact ⟨hkept.trans hroutes, fun name hname => hroutes.subset (hadded name hname)⟩

theorem mem_build_transitions {tr : Transition}
    (h : tr ∈ (build classes states routes transitions).transitions) : tr ∈ transitions := by
  have hf := (build_wellFormed classes states routes transitions).findTransition?_eq_some h
  rw [findTransition?_build] at hf
  exact List.mem_of_find?_eq_some hf

theorem build_defines {name : String} (h : name ∈ transitions.map Transition.name) :
    name ∈ (build classes states routes transitions).transitions.map Transition.name := by
  obtain ⟨tr, htr, rfl⟩ := List.mem_map.mp h
  cases hf : transitions.find? fun x => x.name == tr.name with
  | none =>
    have hn := List.find?_eq_none.mp hf tr htr
    simp at hn
  | some found =>
    have hfound : (build classes states routes transitions).findTransition? tr.name = some found :=
      (findTransition?_build tr.name).trans hf
    have hname : found.name = tr.name := by simpa using List.find?_some hf
    exact List.mem_map.mpr ⟨found, List.mem_of_find?_eq_some hfound, hname⟩

/-- What a built state does at a class is one of the routes, and the class has members. -/
theorem route_of_build_entry {s : State}
    (hs : s ∈ (build classes states routes transitions).states) {e : String × String}
    (he : e ∈ s.entries) :
    ∃ r ∈ routes, r.transition = e.2 ∧
      ∃ members, (r.className, members) ∈ classes ∧ members ≠ [] := by
  have hw := build_wellFormed classes states routes transitions
  obtain ⟨c, hc, hn⟩ := hw.routes_declared s hs e he
  obtain ⟨g, hg⟩ := List.exists_mem_of_ne_nil c.glyphs (hw.class_ne_nil c hc)
  have hholds : (build classes states routes transitions).Holds e.1 g := ⟨c, hc, hn, hg⟩
  have hroute := hw.route?_of_mem hs he
  rw [route?_build s.name (hasClass_of_holds hholds)] at hroute
  obtain ⟨r, hr, htr⟩ := Option.map_eq_some_iff.mp hroute
  have hclass : r.className = e.1 := by
    have hp := List.find?_some hr
    simp only [Bool.and_eq_true, beq_iff_eq] at hp
    exact hp.2
  obtain ⟨members, hm, hgm⟩ := holds_build.mp hholds
  rw [← hclass] at hm
  exact ⟨r, List.mem_of_find?_eq_some hr, htr, members, hm, List.ne_nil_of_mem hgm⟩

/-- The transition of a route is there if its class has members, a transition leads to a state, and
actions name one of the tables. -/
structure Fits (classes : List (String × List Glyph)) (states : List String) (routes : List Route)
    (transitions : List Transition) (tables : List String) : Prop where
  defined : ∀ r ∈ routes, (∃ members, (r.className, members) ∈ classes ∧ members ≠ []) →
    r.transition ∈ transitions.map Transition.name
  declared : ∀ tr ∈ transitions, tr.next ∈ start :: states
  named : ∀ tr ∈ transitions, ∀ a ∈ tr.actions, ∀ table ∈ a.table?, table ∈ tables

theorem Fits.closed_with (h : Fits classes states routes transitions tables)
    {substitutions : List SubstitutionTable}
    (hs : substitutions.map SubstitutionTable.name = tables) :
    { build classes states routes transitions with substitutions := substitutions }.Closed := by
  have hw := build_wellFormed classes states routes transitions
  obtain ⟨hstart, hstates⟩ := build_names classes states routes transitions
  refine ⟨⟨hw.states_nodup, hw.transitions_nodup, hw.class_ne_nil, hw.routes_nodup,
    hw.routes_declared⟩, hstart, ?_, ?_, ?_⟩
  · intro s hmem e he
    obtain ⟨r, hr, htr, hclass⟩ := route_of_build_entry hmem he
    rw [← htr]
    exact build_defines (h.defined r hr hclass)
  · intro tr htr
    rcases List.mem_cons.mp (h.declared tr (mem_build_transitions htr)) with hn | hn
    · rw [hn]
      exact hstart.subset List.mem_cons_self
    · exact hstates _ hn
  · intro tr htr a ha table htable
    rw [hs]
    exact h.named tr (mem_build_transitions htr) a ha table htable

theorem Fits.closed {name : String} (h : Fits classes states routes transitions [name])
    (entries : List (Glyph × Glyph)) :
    ((build classes states routes transitions).addSubstitution name entries).Closed := by
  have hnames : [(⟨name, entries⟩ : SubstitutionTable)].map SubstitutionTable.name = [name] := rfl
  have hc := h.closed_with hnames
  rwa [addSubstitution, build_substitutions]

end Build

section Adjacent

variable {glyph : Glyph} {entries : List (Glyph × Glyph)}

/-- The transitions of the class of glyphs that are target and context are there if it has
members. -/
theorem fits_adjacentClasses {targets : List Glyph} {states : List String} {routes : List Route}
    {transitions : Bool → List Transition}
    (hall : ∀ r ∈ routes, r.transition ∈ (transitions true).map Transition.name)
    (hplain : ∀ r ∈ routes, r.className ≠ "TrgtAndCntx" →
      r.transition ∈ (transitions false).map Transition.name)
    (hdeclared : ∀ b, ∀ tr ∈ transitions b, tr.next ∈ start :: states)
    (hnamed : ∀ b, ∀ tr ∈ transitions b, ∀ a ∈ tr.actions, ∀ table ∈ a.table?,
      table ∈ ["Subst"]) :
    Fits (adjacentClasses glyph targets) states routes
      (transitions (Overlap.of targets [glyph]).isOverlapping) ["Subst"] := by
  refine ⟨?_, hdeclared _, hnamed _⟩
  rintro r hr ⟨members, hm, hne⟩
  cases ho : (Overlap.of targets [glyph]).isOverlapping with
  | true => exact hall r hr
  | false =>
    apply hplain r hr
    intro hc
    rw [hc] at hm
    simp only [adjacentClasses, List.mem_cons, Prod.mk.injEq, List.not_mem_nil, or_false] at hm
    have hb : members = (Overlap.of targets [glyph]).both := by simpa using hm
    rw [Overlap.isOverlapping, Bool.not_eq_false', List.isEmpty_iff, ← hb] at ho
    exact hne ho

theorem adjacent_closed (side : Side) : (adjacent side glyph entries).Closed := by
  cases side with
  | after =>
    rw [adjacent_after_eq]
    exact (fits_adjacentClasses (by decide) (by decide) (by decide) (by decide)).closed entries
  | before =>
    rw [adjacent_before_eq]
    exact (fits_adjacentClasses (by decide) (by decide) (by decide) (by decide)).closed entries

end Adjacent

section Chain

variable {length : Nat}

theorem fits_chainAfter (hl : 0 < length) (classes : List (String × List Glyph)) :
    Fits classes ((List.range' 1 length).map sawContext) (chainAfterRoutes length)
      (chainAfterTransitions length) ["Subst"] := by
  refine ⟨?_, ?_, ?_⟩
  · intro r hr _
    rcases (mem_chainAfterRoutes hl).mp hr with ⟨k, j, _, hj, _, rfl⟩ | rfl
    · exact List.mem_map.mpr ⟨_, mem_chainAfterTransitions.mpr (Or.inl ⟨j, hj, rfl⟩), rfl⟩
    · exact List.mem_map.mpr ⟨_, mem_chainAfterTransitions.mpr (Or.inr rfl), rfl⟩
  · intro tr htr
    rcases mem_chainAfterTransitions.mp htr with ⟨j, hj, rfl⟩ | rfl
    · have hmem : j + 1 ∈ List.range' 1 length := List.mem_range'_1.mpr (by omega)
      exact List.mem_cons_of_mem _ (List.mem_map_of_mem hmem)
    · exact List.mem_cons_self
  · intro tr htr
    rcases mem_chainAfterTransitions.mp htr with ⟨j, _, rfl⟩ | rfl
    · simp
    · simp [Action.table?]

theorem fits_chainBefore (hl : 0 < length) (classes : List (String × List Glyph)) :
    Fits classes ((List.range length).map awaiting) (chainBeforeRoutes length)
      (chainBeforeTransitions length) ["Subst"] := by
  have hstate : ∀ k, k < length →
      waitState (some k) ∈ start :: (List.range length).map awaiting :=
    fun k hk => List.mem_cons_of_mem _ (List.mem_map_of_mem (List.mem_range.mpr hk))
  have hlast : "DoSubstitution" ∈ (chainBeforeTransitions length).map Transition.name :=
    List.mem_map.mpr ⟨_, mem_chainBeforeTransitions.mpr (Or.inr (Or.inr rfl)), rfl⟩
  have hsaw : ∀ j, j + 1 < length →
      sawContext (j + 1) ∈ (chainBeforeTransitions length).map Transition.name :=
    fun j hj =>
      List.mem_map.mpr ⟨_, mem_chainBeforeTransitions.mpr (Or.inr (Or.inl ⟨j, hj, rfl⟩)), rfl⟩
  refine ⟨?_, ?_, ?_⟩
  · intro r hr _
    rcases mem_chainBeforeRoutes.mp hr with ⟨o, _, rfl⟩ | ⟨k, hk, rfl⟩ | ⟨j, hj, rfl⟩
    · exact List.mem_map.mpr ⟨_, mem_chainBeforeTransitions.mpr (Or.inl rfl), rfl⟩
    · unfold beforeStep
      split
      next hlt => exact hsaw k hlt
      next => exact hlast
    · exact hsaw j hj
  · intro tr htr
    rcases mem_chainBeforeTransitions.mp htr with rfl | ⟨j, hj, rfl⟩ | rfl
    · exact hstate 0 hl
    · exact hstate (j + 1) hj
    · exact List.mem_cons_self
  · intro tr htr
    rcases mem_chainBeforeTransitions.mp htr with rfl | ⟨j, _, rfl⟩ | rfl
    · simp [Action.table?]
    · simp
    · simp [Action.table?]

theorem chain_closed (hl : 0 < length) (side : Side) (patterns : List (List Glyph))
    (entries : List (Glyph × Glyph)) : (chain side length patterns entries).Closed := by
  cases side with
  | after =>
    rw [chain_after_eq]
    exact (fits_chainAfter hl _).closed entries
  | before =>
    rw [chain_before_eq]
    exact (fits_chainBefore hl _).closed entries

end Chain

theorem between_closed (firsts seconds : List Glyph) (entries : List (Glyph × Glyph)) :
    (between firsts seconds entries).Closed := by
  rw [between_eq]
  refine Fits.closed ⟨?_, ?_, ?_⟩ entries
  · intro route hr _
    obtain ⟨⟨p, r, m⟩, hstep, rfl⟩ := List.mem_map.mp hr
    exact List.mem_map.mpr ⟨m.transition, List.mem_map.mpr ⟨_, hstep, rfl⟩, rfl⟩
  · intro tr htr
    obtain ⟨⟨p, r, m⟩, hstep, rfl⟩ := List.mem_map.mp htr
    obtain ⟨hp, hr, rfl, _⟩ := mem_betweenSteps.mp hstep
    have hnext := Progress.next_mem_reachable hp (Or.inl hr)
    exact List.mem_cons_of_mem _ (List.mem_map_of_mem hnext)
  · intro tr htr
    obtain ⟨⟨p, r, m⟩, _, rfl⟩ := List.mem_map.mp htr
    exact m.actions_name_subst

section BetweenChain

variable {n m : Nat}

theorem betweenChain_closed (hn : 0 < n) (hm : 0 < m) (positions : List MatchPosition)
    (entries : List (Glyph × Glyph)) : (betweenChain n m positions entries).Closed := by
  unfold betweenChain
  refine Fits.closed ⟨?_, ?_, ?_⟩ entries
  · intro r hr _
    obtain ⟨i, j, hi, hj, rfl⟩ := (mem_betweenChainRoutes hn hm).mp hr
    exact List.mem_map.mpr ⟨_, (mem_betweenChainTransitions hm).mpr ⟨j, by omega, rfl⟩, rfl⟩
  · intro tr htr
    obtain ⟨k, hk, rfl⟩ := (mem_betweenChainTransitions hm).mp htr
    have hlt : matchedAfter (n + m + 1) k < n + m + 1 := matchedAfter_lt hk
    rw [betweenStates_eq hm]
    by_cases h0 : matchedAfter (n + m + 1) k = 0
    · rw [betweenTransition, h0]
      exact List.mem_cons_self
    · exact List.mem_cons_of_mem _ (List.mem_map_of_mem (List.mem_range'_1.mpr (by omega)))
  · intro tr htr
    obtain ⟨k, hk, rfl⟩ := (mem_betweenChainTransitions hm).mp htr
    unfold betweenTransition
    split <;> split <;> simp [Action.table?]

end BetweenChain

section Whole

variable {length : Nat}

theorem matched_mem {i : Nat} (hi : i + 1 < length) :
    matched (i + 1) ∈ start :: (List.range' 1 (length - 1)).map matched :=
  List.mem_cons_of_mem _ (List.mem_map_of_mem (List.mem_range'_1.mpr (by omega)))

theorem whole_closed (hl : 0 < length) (target : Nat) (patterns : List (List Glyph))
    (entries : List (Glyph × Glyph)) : (whole length target patterns entries).Closed := by
  unfold whole
  refine Fits.closed ⟨?_, ?_, ?_⟩ entries
  · intro r hr _
    obtain ⟨i, j, hi, hj, rfl⟩ := (mem_wholeRoutes hl).mp hr
    by_cases hlast : j + 1 = length
    · exact List.mem_map.mpr ⟨_, mem_wholeTransitions.mpr (Or.inr rfl), by simp [wholeStep, hlast]⟩
    · exact List.mem_map.mpr ⟨_, mem_wholeTransitions.mpr (Or.inl ⟨j, by omega, rfl⟩), rfl⟩
  · intro tr htr
    rcases mem_wholeTransitions.mp htr with ⟨i, hi, rfl⟩ | rfl
    · exact matched_mem hi
    · exact List.mem_cons_self
  · intro tr htr
    rcases mem_wholeTransitions.mp htr with ⟨i, _, rfl⟩ | rfl
    · dsimp only
      split <;> simp [Action.table?]
    · dsimp only
      split <;> simp [Action.table?]

theorem marking_closed (pattern : List Glyph) (marked : List Nat)
    (entries : List (Glyph × Glyph)) : (marking pattern marked entries).Closed := by
  unfold marking
  refine Fits.closed ⟨?_, ?_, ?_⟩ entries
  · rintro r hr ⟨members, hm, _⟩
    have hl : 0 < pattern.length := by
      cases pattern with
      | nil => cases hm
      | cons g rest => simp
    obtain ⟨i, j, hi, hj, rfl⟩ := (mem_wholeRoutes hl).mp hr
    have hjl : j ∈ List.range pattern.length := List.mem_range.mpr (by omega)
    exact List.mem_map.mpr ⟨_, List.mem_map_of_mem hjl, rfl⟩
  · intro tr htr
    obtain ⟨i, hi, rfl⟩ := List.mem_map.mp htr
    have hlt := List.mem_range.mp hi
    dsimp only
    split
    next => exact List.mem_cons_self
    next => exact matched_mem (by omega)
  · intro tr htr
    obtain ⟨i, _, rfl⟩ := List.mem_map.mp htr
    dsimp only
    split <;> simp [Action.table?]

end Whole

section Rearrangement

theorem rearrangement_closed {w : Window} (hl : 2 ≤ w.before.length) :
    (rearrangement w).Closed := by
  have hfits : Fits (placeClasses w.before) ((List.range' 1 (w.before.length - 1)).map saw)
      (rearrangementRoutes w.before) (rearrangementTransitions w.before.length w.verb) [] := by
    refine ⟨?_, ?_, ?_⟩
    · intro r hr _
      obtain ⟨i, j, hi, hj, rfl⟩ := (mem_rearrangementRoutes (by omega)).mp hr
      exact List.mem_map.mpr
        ⟨_, (mem_rearrangementTransitions hl).mpr ⟨j, by omega, rfl⟩, rfl⟩
    · intro tr htr
      obtain ⟨j, hj, rfl⟩ := (mem_rearrangementTransitions hl).mp htr
      have hlt := matchedAfter_lt hj
      unfold windowTransition windowState
      dsimp only
      split
      next => exact List.mem_cons_self
      next =>
        exact List.mem_cons_of_mem _ (List.mem_map_of_mem (List.mem_range'_1.mpr (by omega)))
    · intro tr htr
      obtain ⟨j, hj, rfl⟩ := (mem_rearrangementTransitions hl).mp htr
      unfold windowTransition
      dsimp only
      split
      next => simp [Action.table?]
      next => split <;> simp [Action.table?]
  have hnone : ([] : List SubstitutionTable).map SubstitutionTable.name = [] := rfl
  have he : { rearrangement w with substitutions := [] } = rearrangement w := by
    have hs : (rearrangement w).substitutions = [] := build_substitutions
    rw [← hs]
  rw [← he]
  exact hfits.closed_with hnone

end Rearrangement

end StateTable

end Metamorphosis
