import Mathlib.Data.List.Nodup
import Metamorphosis.Proofs.StateTable.Build

namespace Metamorphosis

theorem nodup_map_concat {α β : Type} {f : α → β} {xs : List α} {x : α} (h : (xs.map f).Nodup)
    (hx : f x ∉ xs.map f) : ((xs ++ [x]).map f).Nodup := by
  rw [List.map_append, List.map_singleton, List.nodup_append]
  refine ⟨h, by simp, ?_⟩
  intro a ha b hb he
  rw [List.mem_singleton.mp hb] at he
  exact hx (he ▸ ha)

namespace StateTable

variable {t : StateTable}

structure WellFormed (t : StateTable) : Prop where
  states_nodup : (t.states.map State.name).Nodup
  transitions_nodup : (t.transitions.map Transition.name).Nodup
  class_ne_nil : ∀ c ∈ t.classes, c.glyphs ≠ []
  routes_nodup : ∀ s ∈ t.states, (s.entries.map Prod.fst).Nodup
  routes_declared : ∀ s ∈ t.states, ∀ e ∈ s.entries, ∃ c ∈ t.classes, c.name = e.1

theorem new_wellFormed : new.WellFormed := by
  constructor <;> simp [new]

theorem glyphSet_ne_nil {glyphs : List Glyph} (h : glyphs ≠ []) : glyphSet glyphs ≠ [] := by
  obtain ⟨g, hg⟩ := List.exists_mem_of_ne_nil glyphs h
  exact List.ne_nil_of_mem (mem_glyphSet.mpr hg)

theorem insertMembers_ne_nil {name : String} {members : List Glyph} (hm : members ≠ [])
    {cs : List GlyphClass} (hcs : ∀ c ∈ cs, c.glyphs ≠ []) :
    ∀ c ∈ insertMembers name members cs, c.glyphs ≠ [] := by
  induction cs with
  | nil =>
    intro c hc
    rw [List.mem_singleton.mp hc]
    exact glyphSet_ne_nil hm
  | cons d ds ih =>
    have hd := hcs d List.mem_cons_self
    have hds : ∀ c ∈ ds, c.glyphs ≠ [] := fun c hc => hcs c (List.mem_cons_of_mem _ hc)
    intro c hc
    unfold insertMembers at hc
    split at hc
    next =>
      rcases List.mem_cons.mp hc with rfl | hc
      · exact glyphSet_ne_nil (by simp [hm])
      · exact hds c hc
    next =>
      split at hc
      next =>
        rcases List.mem_cons.mp hc with rfl | hc
        · exact glyphSet_ne_nil hm
        · exact hcs c hc
      next =>
        rcases List.mem_cons.mp hc with rfl | hc
        · exact hd
        · exact ih hds c hc

theorem insertMembers_keeps_names (name : String) (members : List Glyph) {cs : List GlyphClass}
    {c : GlyphClass} (hc : c ∈ cs) : ∃ d ∈ insertMembers name members cs, d.name = c.name := by
  induction cs with
  | nil => cases hc
  | cons d ds ih =>
    unfold insertMembers
    split
    next hd =>
      have hn : d.name = name := by simpa using hd
      rcases List.mem_cons.mp hc with rfl | hc
      · exact ⟨_, List.mem_cons_self, hn.symm⟩
      · exact ⟨c, List.mem_cons_of_mem _ hc, rfl⟩
    next =>
      split
      next => exact ⟨c, List.mem_cons_of_mem _ hc, rfl⟩
      next =>
        rcases List.mem_cons.mp hc with rfl | hc
        · exact ⟨c, List.mem_cons_self, rfl⟩
        · obtain ⟨e, he, hn⟩ := ih hc
          exact ⟨e, List.mem_cons_of_mem _ he, hn⟩

theorem addClass_wellFormed (h : t.WellFormed) (name : String) (members : List Glyph) :
    (t.addClass name members).WellFormed := by
  unfold addClass
  split
  next => exact h
  next hm =>
    have hm' : members ≠ [] := by simpa using hm
    refine ⟨h.states_nodup, h.transitions_nodup, insertMembers_ne_nil hm' h.class_ne_nil,
      h.routes_nodup, ?_⟩
    intro s hs e he
    obtain ⟨c, hc, hn⟩ := h.routes_declared s hs e he
    obtain ⟨d, hd, hdn⟩ := insertMembers_keeps_names name members hc
    exact ⟨d, hd, hdn.trans hn⟩

theorem findState?_eq_none {name : String} (h : ¬(t.findState? name).isSome = true) :
    name ∉ t.states.map State.name := by
  intro hm
  obtain ⟨s, hs, rfl⟩ := List.mem_map.mp hm
  have hnone : t.findState? s.name = none := by simpa using h
  have hs' := List.find?_eq_none.mp hnone s hs
  simp at hs'

theorem addState_wellFormed (h : t.WellFormed) (name : String) : (t.addState name).WellFormed := by
  unfold addState
  split
  next => exact h
  next hf =>
    have hnew := findState?_eq_none hf
    have hcases : ∀ s ∈ t.states ++ [({ name } : State)], s ∈ t.states ∨ s.entries = [] := by
      intro s hs
      rcases List.mem_append.mp hs with hs | hs
      · exact Or.inl hs
      · rw [List.mem_singleton.mp hs]
        exact Or.inr rfl
    refine ⟨nodup_map_concat h.states_nodup hnew, h.transitions_nodup, h.class_ne_nil, ?_, ?_⟩
    · intro s hs
      rcases hcases s hs with hs | he
      · exact h.routes_nodup s hs
      · simp [he]
    · intro s hs e he
      rcases hcases s hs with hs | hn
      · exact h.routes_declared s hs e he
      · rw [hn] at he
        cases he

theorem addTransition_wellFormed (h : t.WellFormed) (name next : String) (actions : List Action) :
    (t.addTransition name next actions).WellFormed := by
  unfold addTransition
  split
  next => exact h
  next hf =>
    have hnone : t.findTransition? name = none := by simpa using hf
    have hnew : name ∉ t.transitions.map Transition.name := by
      intro hm
      obtain ⟨tr, htr, rfl⟩ := List.mem_map.mp hm
      have hn := List.find?_eq_none.mp hnone tr htr
      simp at hn
    exact ⟨h.states_nodup, nodup_map_concat h.transitions_nodup hnew, h.class_ne_nil,
      h.routes_nodup, h.routes_declared⟩

/-- The state of a name is the only one of that name. -/
theorem WellFormed.findState?_eq_some (h : t.WellFormed) {s : State} (hs : s ∈ t.states) :
    t.findState? s.name = some s := by
  apply find?_eq_some_of_unique hs (by simp)
  intro y hy hn
  exact List.inj_on_of_nodup_map h.states_nodup hy hs (by simpa using hn)

/-- A state with one more entry, if it has the name. -/
def withEntry (state className transition : String) (s : State) : State :=
  if s.name == state then { s with entries := s.entries ++ [(className, transition)] } else s

@[simp] theorem withEntry_name (state className transition : String) (s : State) :
    (withEntry state className transition s).name = s.name := by
  unfold withEntry
  split <;> rfl

theorem addRoute_states (t : StateTable) (state className transition : String) :
    t.addRoute state className transition = t ∨
      t.hasClass className = true ∧ (t.addState state).route? state className = none ∧
        (t.addRoute state className transition).states =
          (t.addState state).states.map (withEntry state className transition) := by
  unfold addRoute addRoute?
  split
  next => exact Or.inl rfl
  next hc =>
    simp only [Bool.or_eq_true, Bool.not_eq_true', not_or, Bool.not_eq_false,
      Option.not_isSome_iff_eq_none] at hc
    exact Or.inr ⟨hc.1, (route?_addState t state state className).trans hc.2, rfl⟩

theorem addRoute_wellFormed (h : t.WellFormed) (state className transition : String) :
    (t.addRoute state className transition).WellFormed := by
  rcases addRoute_states t state className transition with he | ⟨hc, hr, hstates⟩
  · rw [he]
    exact h
  · have hs := addState_wellFormed h state
    obtain ⟨hclasses, htransitions, _⟩ := addRoute_frame t state className transition
    obtain ⟨hclasses', htransitions', _⟩ := addState_frame t state
    refine ⟨?_, ?_, ?_, ?_, ?_⟩
    · rw [hstates, List.map_map]
      have hn : State.name ∘ withEntry state className transition = State.name :=
        funext fun s => withEntry_name state className transition s
      rw [hn]
      exact hs.states_nodup
    · rw [htransitions]
      exact h.transitions_nodup
    · rw [hclasses]
      exact h.class_ne_nil
    · rw [hstates]
      intro s' hs'
      obtain ⟨s, hmem, rfl⟩ := List.mem_map.mp hs'
      have hnodup := hs.routes_nodup s hmem
      unfold withEntry
      split
      next hname =>
        -- the class was not routed, so its entry is the first of its key
        have hname' : s.name = state := by simpa using hname
        have hfind := hs.findState?_eq_some hmem
        rw [hname'] at hfind
        have hlookup : s.entries.lookup className = none := by
          simpa [route?, hfind] using hr
        apply nodup_map_concat hnodup
        intro hrouted
        obtain ⟨v, hv⟩ := exists_lookup_of_mem hrouted
        rw [hlookup] at hv
        cases hv
      next => exact hnodup
    · rw [hstates, hclasses]
      intro s' hs' e he
      obtain ⟨s, hmem, rfl⟩ := List.mem_map.mp hs'
      have hdeclared := hs.routes_declared s hmem
      rw [hclasses'] at hdeclared
      unfold withEntry at he
      split at he
      next =>
        rcases List.mem_append.mp he with he | he
        · exact hdeclared e he
        · rw [List.mem_singleton.mp he]
          obtain ⟨c, hc, hn⟩ := List.any_eq_true.mp hc
          exact ⟨c, hc, by simpa using hn⟩
      next => exact hdeclared e he

section Build

variable {classes : List (String × List Glyph)} {states : List String} {routes : List Route}
  {transitions : List Transition}

theorem addClasses_wellFormed (h : t.WellFormed) (classes : List (String × List Glyph)) :
    (t.addClasses classes).WellFormed :=
  List.foldlRecOn classes _ h fun _ h c _ => addClass_wellFormed h c.1 c.2

theorem addStates_wellFormed (h : t.WellFormed) (names : List String) :
    (t.addStates names).WellFormed :=
  List.foldlRecOn names _ h fun _ h name _ => addState_wellFormed h name

theorem addRoutes_wellFormed (h : t.WellFormed) (routes : List Route) :
    (t.addRoutes routes).WellFormed :=
  List.foldlRecOn routes _ h fun _ h r _ =>
    addRoute_wellFormed h r.state r.className r.transition

theorem addTransitions_wellFormed (h : t.WellFormed) (transitions : List Transition) :
    (t.addTransitions transitions).WellFormed :=
  List.foldlRecOn transitions _ h fun _ h tr _ =>
    addTransition_wellFormed h tr.name tr.next tr.actions

theorem build_wellFormed (classes : List (String × List Glyph)) (states : List String)
    (routes : List Route) (transitions : List Transition) :
    (build classes states routes transitions).WellFormed :=
  addTransitions_wellFormed (addRoutes_wellFormed (addStates_wellFormed
    (addClasses_wellFormed new_wellFormed classes) states) routes) transitions

end Build

end StateTable

end Metamorphosis
