import Metamorphosis.Proofs.StateTable.Disjoint
import Metamorphosis.Proofs.StateTable.WellFormed

namespace Metamorphosis

/-- One operation on a table. -/
inductive Edit
  | addClass (name : String) (members : List Glyph)
  | addState (name : String)
  | addRoute (route : Route)
  | addTransition (transition : Transition)
  | addSubstitution (table : SubstitutionTable)
deriving DecidableEq

namespace Edit

/-- The edit gives members to a class. -/
def declares (className : String) : Edit → Bool
  | addClass name members => name == className && !members.isEmpty
  | _ => false

/-- The transition that the edit asks for at a class of a state. -/
def route? (state className : String) : Edit → Option String
  | addRoute r => if r.state = state ∧ r.className = className then some r.transition else none
  | _ => none

/-- The transition of a name that the edit asks for. -/
def transition? (name : String) : Edit → Option Transition
  | addTransition tr => if tr.name = name then some tr else none
  | _ => none

def substitution? : Edit → Option SubstitutionTable
  | addSubstitution table => some table
  | _ => none

theorem route?_eq_none_of_declares {e : Edit} {c : String} (h : e.declares c = true)
    (s c' : String) : e.route? s c' = none := by
  cases e with
  | addClass name members => rfl
  | addState name => rfl
  | addRoute r => cases h
  | addTransition tr => rfl
  | addSubstitution table => rfl

end Edit

namespace StateTable

variable {t : StateTable}

def edit (t : StateTable) : Edit → StateTable
  | .addClass name members => t.addClass name members
  | .addState name => t.addState name
  | .addRoute r => t.addRoute r.state r.className r.transition
  | .addTransition tr => t.addTransition tr.name tr.next tr.actions
  | .addSubstitution table => t.addSubstitution table.name table.entries

/-- The table after some edits. -/
def edited (t : StateTable) (edits : List Edit) : StateTable :=
  edits.foldl edit t

theorem edited_append (t : StateTable) (edits later : List Edit) :
    t.edited (edits ++ later) = (t.edited edits).edited later :=
  List.foldl_append

section Order

/-- A well-formed table whose classes are in the order of their names, each name once, and so are
the members of each class. -/
structure Orderly (t : StateTable) : Prop extends WellFormed t where
  classes_ascending : Ascending t.classes
  members_ascending : ∀ c ∈ t.classes, c.glyphs.Pairwise (precedes · · = true)

theorem empty_orderly : ({} : StateTable).Orderly := by
  constructor
  · constructor <;> simp
  · exact List.Pairwise.nil
  · simp

theorem insertMembers_members {P : List Glyph → Prop} (hset : ∀ glyphs, P (glyphSet glyphs))
    (name : String) (members : List Glyph) {cs : List GlyphClass} (hcs : ∀ c ∈ cs, P c.glyphs) :
    ∀ c ∈ insertMembers name members cs, P c.glyphs := by
  induction cs with
  | nil =>
    intro c hc
    rw [List.mem_singleton.mp hc]
    exact hset members
  | cons d ds ih =>
    obtain ⟨hd, hds⟩ := List.forall_mem_cons.mp hcs
    unfold insertMembers
    split
    next => exact List.forall_mem_cons.mpr ⟨hset _, hds⟩
    next =>
      split
      next => exact List.forall_mem_cons.mpr ⟨hset _, hcs⟩
      next => exact List.forall_mem_cons.mpr ⟨hd, ih hds⟩

theorem addClass_orderly (h : t.Orderly) (name : String) (members : List Glyph) :
    (t.addClass name members).Orderly := by
  refine ⟨addClass_wellFormed h.toWellFormed name members,
    addClass_ascending name members h.classes_ascending, ?_⟩
  unfold addClass
  split
  next => exact h.members_ascending
  next =>
    exact insertMembers_members (fun glyphs => sortDistinct_pairwise precedes_orders glyphs) name
      members h.members_ascending

/-- Whether a table is in order is told by its classes if it is well-formed. -/
theorem Orderly.of_classes {u : StateTable} (h : t.Orderly) (hw : u.WellFormed)
    (hc : u.classes = t.classes) : u.Orderly := by
  refine ⟨hw, ?_, ?_⟩
  · rw [hc]
    exact h.classes_ascending
  · rw [hc]
    exact h.members_ascending

theorem edit_orderly (h : t.Orderly) (e : Edit) : (t.edit e).Orderly := by
  have hw := h.toWellFormed
  cases e with
  | addClass name members => exact addClass_orderly h name members
  | addState name => exact h.of_classes (addState_wellFormed hw name) (addState_frame t name).1
  | addRoute r =>
    exact h.of_classes (addRoute_wellFormed hw r.state r.className r.transition)
      (addRoute_frame t r.state r.className r.transition).1
  | addTransition tr =>
    exact h.of_classes (addTransition_wellFormed hw tr.name tr.next tr.actions)
      (addTransition_frame t tr.name tr.next tr.actions).1
  | addSubstitution table =>
    exact ⟨⟨hw.states_nodup, hw.transitions_nodup, hw.class_ne_nil, hw.routes_nodup,
      hw.routes_declared⟩, h.classes_ascending, h.members_ascending⟩

theorem edited_orderly (h : t.Orderly) (edits : List Edit) : (t.edited edits).Orderly :=
  List.foldlRecOn edits edit h fun _ h e _ => edit_orderly h e

end Order

section Step

@[simp] theorem addSubstitution_states (t : StateTable) (name : String)
    (entries : List (Glyph × Glyph)) : (t.addSubstitution name entries).states = t.states := rfl

@[simp] theorem addSubstitution_transitions (t : StateTable) (name : String)
    (entries : List (Glyph × Glyph)) :
    (t.addSubstitution name entries).transitions = t.transitions := rfl

@[simp] theorem route?_addSubstitution (t : StateTable) (name : String)
    (entries : List (Glyph × Glyph)) (s c : String) :
    (t.addSubstitution name entries).route? s c = t.route? s c := rfl

@[simp] theorem hasClass_addSubstitution (t : StateTable) (name : String)
    (entries : List (Glyph × Glyph)) (c : String) :
    (t.addSubstitution name entries).hasClass c = t.hasClass c := rfl

theorem insertMembers_names {name n : String} {members : List Glyph} (hm : members ≠ [])
    {cs : List GlyphClass} :
    (∃ c ∈ insertMembers name members cs, c.name = n) ↔ name = n ∨ ∃ c ∈ cs, c.name = n := by
  constructor
  · rintro ⟨c, hc, rfl⟩
    exact (name_of_mem_insertMembers hc).imp Eq.symm id
  · rintro (rfl | ⟨c, hc, rfl⟩)
    · obtain ⟨g, hg⟩ := List.exists_mem_of_ne_nil members hm
      obtain ⟨c, hc, hn, _⟩ := mem_insertMembers.mpr (Or.inl ⟨rfl, hg⟩)
      exact ⟨c, hc, hn⟩
    · exact insertMembers_keeps_names name members hc

theorem hasClass_addClass (t : StateTable) (name c : String) (members : List Glyph) :
    (t.addClass name members).hasClass c =
      (t.hasClass c || (Edit.addClass name members).declares c) := by
  have hiff : ∀ u : StateTable, u.hasClass c = true ↔ ∃ d ∈ u.classes, d.name = c := by
    intro u
    simp [hasClass]
  unfold addClass Edit.declares
  split
  next hm => simp [hm]
  next hm =>
    have hne : members ≠ [] := by simpa using hm
    rw [Bool.eq_iff_iff, hiff, insertMembers_names hne, Bool.or_eq_true, hiff]
    simp [hm, or_comm]

theorem hasClass_edit (t : StateTable) (e : Edit) (c : String) :
    (t.edit e).hasClass c = (t.hasClass c || e.declares c) := by
  cases e with
  | addClass name members => exact hasClass_addClass t name c members
  | addState name => simp [edit, hasClass, addState_frame, Edit.declares]
  | addRoute r => simp [edit, hasClass, addRoute_frame, Edit.declares]
  | addTransition tr => simp [edit, hasClass, addTransition_frame, Edit.declares]
  | addSubstitution table => simp [edit, Edit.declares]

theorem holds_edit {e : Edit} {name : String} {g : Glyph} :
    (t.edit e).Holds name g ↔
      t.Holds name g ∨ ∃ members, e = .addClass name members ∧ g ∈ members := by
  cases e with
  | addClass n members =>
    rw [edit, holds_addClass]
    simp only [Edit.addClass.injEq]
    grind
  | addState n => simp [edit, Holds, addState_frame]
  | addRoute r => simp [edit, Holds, addRoute_frame]
  | addTransition tr => simp [edit, Holds, addTransition_frame]
  | addSubstitution table => simp [edit, Holds, addSubstitution_classes]

theorem route?_edit (t : StateTable) (e : Edit) (s c : String) :
    (t.edit e).route? s c =
      (t.route? s c).or (if t.hasClass c then e.route? s c else none) := by
  cases e with
  | addClass name members => simp [edit, route?, findState?, addClass_frame, Edit.route?]
  | addState name => simp [edit, route?_addState, Edit.route?]
  | addRoute r =>
    rw [edit, route?_addRoute, Edit.route?]
    by_cases hr : r.state = s ∧ r.className = c
    · obtain ⟨rfl, rfl⟩ := hr
      simp
    · simp [hr]
  | addTransition tr => simp [edit, route?, findState?, addTransition_frame, Edit.route?]
  | addSubstitution table => simp [edit, Edit.route?]

theorem findTransition?_edit (t : StateTable) (e : Edit) (name : String) :
    (t.edit e).findTransition? name = (t.findTransition? name).or (e.transition? name) := by
  cases e with
  | addClass n members => simp [edit, findTransition?, addClass_frame, Edit.transition?]
  | addState n => simp [edit, findTransition?, addState_frame, Edit.transition?]
  | addRoute r => simp [edit, findTransition?, addRoute_frame, Edit.transition?]
  | addTransition tr => rw [edit, findTransition?_addTransition, Edit.transition?]
  | addSubstitution table => simp [edit, findTransition?, Edit.transition?]

theorem substitutions_edit (t : StateTable) (e : Edit) :
    (t.edit e).substitutions = t.substitutions ++ e.substitution?.toList := by
  cases e with
  | addClass n members => simp [edit, addClass_frame, Edit.substitution?]
  | addState n => simp [edit, addState_frame, Edit.substitution?]
  | addRoute r => simp [edit, addRoute_frame, Edit.substitution?]
  | addTransition tr => simp [edit, addTransition_frame, Edit.substitution?]
  | addSubstitution table => simp [edit, addSubstitution, Edit.substitution?]

theorem mem_names_iff {n : String} :
    n ∈ t.states.map State.name ↔ (t.findState? n).isSome = true := by
  simp [findState?]

theorem mem_names_addState {name n : String} :
    n ∈ (t.addState name).states.map State.name ↔ n ∈ t.states.map State.name ∨ n = name := by
  rw [mem_names_iff, mem_names_iff, findState?_addState, Option.isSome_or, Bool.or_eq_true]
  by_cases h : name = n
  · simp [h]
  · simp [h, Ne.symm h]

/-- What a state does at a class is one of its entries. -/
theorem entry_of_route? {s c transition : String} (h : t.route? s c = some transition) :
    ∃ x ∈ t.states, x.name = s ∧ (c, transition) ∈ x.entries := by
  obtain ⟨x, hx, hl⟩ := Option.bind_eq_some_iff.mp h
  exact ⟨x, List.mem_of_find?_eq_some hx, by simpa using List.find?_some hx, mem_of_lookup hl⟩

theorem mem_names_addRoute {state className transition n : String} :
    n ∈ (t.addRoute state className transition).states.map State.name ↔
      n ∈ t.states.map State.name ∨ n = state ∧ t.hasClass className = true := by
  unfold addRoute addRoute?
  split
  next h =>
    -- a route is refused if the class is not there, or if the state is there and has one
    rw [Bool.or_eq_true, Bool.not_eq_true', Option.isSome_iff_exists] at h
    constructor
    · exact Or.inl
    · rintro (hn | ⟨rfl, hc⟩)
      · exact hn
      · obtain ⟨tr, htr⟩ := h.resolve_left (by simp [hc])
        obtain ⟨x, hx, hn, _⟩ := entry_of_route? htr
        exact List.mem_map.mpr ⟨x, hx, hn⟩
  next h =>
    rw [Bool.or_eq_true, not_or, Bool.not_eq_true', Bool.not_eq_false] at h
    have hnames : State.name ∘ withEntry state className transition = State.name :=
      funext fun s => withEntry_name state className transition s
    change n ∈ ((t.addState state).states.map (withEntry state className transition)).map
      State.name ↔ _
    rw [List.map_map, hnames, mem_names_addState, and_iff_left h.1]

theorem mem_names_edit {e : Edit} {n : String} :
    n ∈ (t.edit e).states.map State.name ↔
      n ∈ t.states.map State.name ∨ e = .addState n ∨
        ∃ c transition, t.hasClass c = true ∧ e = .addRoute ⟨n, c, transition⟩ := by
  cases e with
  | addClass name members => simp [edit, addClass_frame]
  | addState name =>
    rw [edit, mem_names_addState]
    simp [@eq_comm _ n]
  | addRoute r =>
    rw [edit, mem_names_addRoute]
    obtain ⟨state, c, transition⟩ := r
    simp [@eq_comm _ n, and_comm]
  | addTransition tr => simp [edit, addTransition_frame]
  | addSubstitution table => simp [edit]

end Step

section Growth

/-- All that a table holds is in another one as well: members in their classes, states at their
indices with the entries they had first, transitions and substitutions first. -/
structure Extends (t u : StateTable) : Prop where
  members : ∀ name g, t.Holds name g → u.Holds name g
  states : ∀ (i : Nat) (s : State), t.states[i]? = some s →
    ∃ s', u.states[i]? = some s' ∧ s'.name = s.name ∧ s.entries <+: s'.entries
  transitions : t.transitions <+: u.transitions
  substitutions : t.substitutions <+: u.substitutions

theorem Extends.refl (t : StateTable) : t.Extends t :=
  ⟨fun _ _ h => h, fun _ s hs => ⟨s, hs, rfl, List.prefix_rfl⟩, List.prefix_rfl, List.prefix_rfl⟩

theorem Extends.trans {u v : StateTable} (h : t.Extends u) (h' : u.Extends v) : t.Extends v := by
  refine ⟨fun name g hg => h'.members name g (h.members name g hg), ?_,
    h.transitions.trans h'.transitions, h.substitutions.trans h'.substitutions⟩
  intro i s hs
  obtain ⟨s', hs', hn, he⟩ := h.states i s hs
  obtain ⟨s'', hs'', hn', he'⟩ := h'.states i s' hs'
  exact ⟨s'', hs'', hn'.trans hn, he.trans he'⟩

theorem getElem?_addState (name : String) {i : Nat} {s : State} (hs : t.states[i]? = some s) :
    (t.addState name).states[i]? = some s := by
  unfold addState
  split
  next => exact hs
  next =>
    obtain ⟨hi, _⟩ := List.getElem?_eq_some_iff.mp hs
    rw [List.getElem?_append_left hi, hs]

theorem entries_withEntry (state className transition : String) (s : State) :
    s.entries <+: (withEntry state className transition s).entries := by
  unfold withEntry
  split
  next => exact List.prefix_append _ _
  next => exact List.prefix_rfl

theorem getElem?_addRoute (state className transition : String) {i : Nat} {s : State}
    (hs : t.states[i]? = some s) :
    ∃ s', (t.addRoute state className transition).states[i]? = some s' ∧ s'.name = s.name ∧
      s.entries <+: s'.entries := by
  rcases addRoute_states t state className transition with he | ⟨_, _, hstates⟩
  · rw [he]
    exact ⟨s, hs, rfl, List.prefix_rfl⟩
  · rw [hstates, List.getElem?_map, getElem?_addState state hs]
    exact ⟨_, rfl, withEntry_name state className transition s,
      entries_withEntry state className transition s⟩

theorem addTransition_transitions (t : StateTable) (name next : String) (actions : List Action) :
    t.transitions <+: (t.addTransition name next actions).transitions := by
  unfold addTransition
  split
  next => exact List.prefix_rfl
  next => exact List.prefix_append _ _

theorem edit_extends (t : StateTable) (e : Edit) : t.Extends (t.edit e) := by
  refine ⟨fun name g hg => holds_edit.mpr (Or.inl hg), ?_, ?_, ?_⟩
  · intro i s hs
    have hkept : ∃ s', t.states[i]? = some s' ∧ s'.name = s.name ∧ s.entries <+: s'.entries :=
      ⟨s, hs, rfl, List.prefix_rfl⟩
    cases e with
    | addClass name members => rwa [edit, (addClass_frame t name members).1]
    | addState name => exact ⟨s, getElem?_addState name hs, rfl, List.prefix_rfl⟩
    | addRoute r => exact getElem?_addRoute r.state r.className r.transition hs
    | addTransition tr => rwa [edit, (addTransition_frame t tr.name tr.next tr.actions).2.1]
    | addSubstitution table => exact hkept
  · cases e with
    | addClass name members => rw [edit, (addClass_frame t name members).2.1]
    | addState name => rw [edit, (addState_frame t name).2.1]
    | addRoute r => rw [edit, (addRoute_frame t r.state r.className r.transition).2.1]
    | addTransition tr => exact addTransition_transitions t tr.name tr.next tr.actions
    | addSubstitution table => exact List.prefix_rfl
  · rw [substitutions_edit]
    exact List.prefix_append _ _

theorem edited_extends (t : StateTable) (edits : List Edit) : t.Extends (t.edited edits) := by
  induction edits generalizing t with
  | nil => exact Extends.refl t
  | cons e edits ih => exact (edit_extends t e).trans (ih (t.edit e))

end Growth

section History

/-- The edits from the one on that declares a class, or all of them if it is there already. -/
def sinceDeclared (t : StateTable) (className : String) (edits : List Edit) : List Edit :=
  if t.hasClass className then edits else edits.dropWhile fun e => !e.declares className

theorem sinceDeclared_cons (t : StateTable) (c : String) (e : Edit) (edits : List Edit) :
    t.sinceDeclared c (e :: edits) =
      if t.hasClass c || e.declares c then e :: (t.edit e).sinceDeclared c edits
      else (t.edit e).sinceDeclared c edits := by
  unfold sinceDeclared
  rw [hasClass_edit]
  cases hc : t.hasClass c with
  | true => simp
  | false => cases hd : e.declares c <;> simp [hd]

/-- A route is in force if its class is there before it. -/
theorem addRoute_mem_sinceDeclared_cons {c : String} {e : Edit} {edits : List Edit} {r : Route} :
    Edit.addRoute r ∈ t.sinceDeclared c (e :: edits) ↔
      t.hasClass c = true ∧ e = .addRoute r ∨
        Edit.addRoute r ∈ (t.edit e).sinceDeclared c edits := by
  rw [sinceDeclared_cons]
  cases hd : e.declares c with
  | true =>
    have hne : e ≠ .addRoute r := by
      rintro rfl
      cases hd
    simp [hne, Ne.symm hne]
  | false => cases hc : t.hasClass c <;> simp [@eq_comm _ e]

/-- A table holds what another one held and what edits have asked for. The first route for a class
of a state counts that found the class declared, and the first transition of a name. -/
structure Records (t : StateTable) (edits : List Edit) (u : StateTable) : Prop where
  members : ∀ name g, u.Holds name g ↔
    t.Holds name g ∨ ∃ members, Edit.addClass name members ∈ edits ∧ g ∈ members
  names : ∀ name, name ∈ u.states.map State.name ↔
    name ∈ t.states.map State.name ∨ Edit.addState name ∈ edits ∨
      ∃ c transition, Edit.addRoute ⟨name, c, transition⟩ ∈ t.sinceDeclared c edits
  routes : ∀ s c, u.route? s c =
    (t.route? s c).or ((t.sinceDeclared c edits).findSome? (Edit.route? s c))
  transitions : ∀ name, u.findTransition? name =
    (t.findTransition? name).or (edits.findSome? (Edit.transition? name))
  substitutions : u.substitutions = t.substitutions ++ edits.filterMap Edit.substitution?

theorem Records.nil (t : StateTable) : t.Records [] t := by
  constructor <;> simp [sinceDeclared]

/-- What the later edits ask for is asked of the table that the first one leaves. -/
theorem Records.cons {e : Edit} {edits : List Edit} {u : StateTable}
    (h : (t.edit e).Records edits u) : t.Records (e :: edits) u := by
  constructor
  · intro name g
    rw [h.members, holds_edit]
    simp only [List.mem_cons]
    grind
  · intro name
    rw [h.names, mem_names_edit]
    simp only [addRoute_mem_sinceDeclared_cons, List.mem_cons, @eq_comm _ (Edit.addState name)]
    grind
  · intro s c
    rw [h.routes, route?_edit, sinceDeclared_cons, Option.or_assoc]
    congr 1
    -- the edit that declares the class is in the list from there on, but is no route itself
    cases hc : t.hasClass c with
    | true => cases hr : e.route? s c <;> simp [hr]
    | false =>
      cases hd : e.declares c with
      | true => simp [Edit.route?_eq_none_of_declares hd]
      | false => simp
  · intro name
    rw [h.transitions, findTransition?_edit, Option.or_assoc, List.findSome?_cons]
    cases e.transition? name <;> rfl
  · rw [h.substitutions, substitutions_edit, List.append_assoc]
    cases hs : e.substitution? <;> simp [hs]

theorem edited_records (t : StateTable) (edits : List Edit) : t.Records edits (t.edited edits) := by
  induction edits generalizing t with
  | nil => exact Records.nil t
  | cons e edits ih => exact (ih (t.edit e)).cons

theorem sinceDeclared_subset (t : StateTable) (c : String) (edits : List Edit) :
    t.sinceDeclared c edits ⊆ edits := by
  unfold sinceDeclared
  split
  next => exact List.Subset.refl edits
  next => exact (List.dropWhile_suffix _).subset

end History

section Build

variable {classes : List (String × List Glyph)} {states : List String} {routes : List Route}
  {transitions : List Transition}

/-- Building a table is editing the one with its first state alone. -/
theorem build_eq_edited :
    build classes states routes transitions =
      new.edited (classes.map (fun c => .addClass c.1 c.2) ++ states.map .addState ++
        routes.map .addRoute ++ transitions.map .addTransition) := by
  simp only [edited, List.foldl_append, List.foldl_map]
  rfl

/-- A built table has no states but those asked for and those with routes. -/
theorem name_of_build {name : String}
    (h : name ∈ (build classes states routes transitions).states.map State.name) :
    name = start ∨ name ∈ states ∨ ∃ r ∈ routes, r.state = name := by
  rw [build_eq_edited, (edited_records _ _).names] at h
  rcases h with h | h | ⟨c, transition, h⟩
  · exact Or.inl (List.mem_singleton.mp h)
  · exact Or.inr (Or.inl (by simpa using h))
  · have hmem := sinceDeclared_subset new c _ h
    exact Or.inr (Or.inr ⟨⟨name, c, transition⟩, by simpa using hmem, rfl⟩)

end Build

/-- A table edited from nothing, or from its first state alone, is in order, holds what its edits
have asked for, and keeps all of it in place under later edits. -/
theorem edits_only_add {t : StateTable} (ht : t = {} ∨ t = new) (edits later : List Edit) :
    (t.edited edits).Orderly ∧ t.Records edits (t.edited edits) ∧
      (t.edited edits).Extends (t.edited (edits ++ later)) := by
  have horderly : t.Orderly := by
    rcases ht with rfl | rfl
    · exact empty_orderly
    · exact edit_orderly empty_orderly (.addState start)
  refine ⟨edited_orderly horderly edits, edited_records t edits, ?_⟩
  rw [edited_append]
  exact edited_extends (t.edited edits) later

/-- Edits of which several come to nothing: a class without members, routes for it and for a class
that gets its members later, and a second route and a second transition of one name. -/
def contestedEdits : List Edit :=
  [.addClass "Empty" [], .addRoute ⟨"SawLetter", "Letter", "Early"⟩,
    .addClass "Letter" ["b", "a"], .addRoute ⟨"SawLetter", "Letter", "MarkLetter"⟩,
    .addRoute ⟨"SawLetter", "Letter", "Late"⟩, .addRoute ⟨start, "Empty", "MarkLetter"⟩,
    .addTransition ⟨"MarkLetter", "SawLetter", [.markGlyph]⟩,
    .addTransition ⟨"MarkLetter", start, []⟩]

theorem edits_only_add_contested :
    new.edited contestedEdits =
      { classes := [⟨"Letter", ["a", "b"]⟩]
        states := [⟨start, []⟩, ⟨"SawLetter", [("Letter", "MarkLetter")]⟩]
        transitions := [⟨"MarkLetter", "SawLetter", [.markGlyph]⟩] } ∧
      (new.edited contestedEdits).Orderly ∧
      new.Records contestedEdits (new.edited contestedEdits) ∧
      (new.edited contestedEdits).Extends
        (new.edited (contestedEdits ++
          [.addClass "Letter" ["c"], .addRoute ⟨start, "Letter", "MarkLetter"⟩])) :=
  ⟨by decide, edits_only_add (Or.inr rfl) contestedEdits
    [.addClass "Letter" ["c"], .addRoute ⟨start, "Letter", "MarkLetter"⟩]⟩

end StateTable

end Metamorphosis
