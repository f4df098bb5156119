import Metamorphosis.Proofs.Ordered
import Metamorphosis.StateTable
import Metamorphosis.StateTable.Run

namespace Metamorphosis

/-- A search finds the only element it can find. -/
theorem find?_eq_some_of_unique {α : Type} {p : α → Bool} {xs : List α} {x : α} (hx : x ∈ xs)
    (hp : p x = true) (unique : ∀ y ∈ xs, p y = true → y = x) : xs.find? p = some x := by
  cases hf : xs.find? p with
  | none => exact absurd hp (List.find?_eq_none.mp hf x hx)
  | some y => rw [unique y (List.mem_of_find?_eq_some hf) (List.find?_some hf)]

/-- A search that can find one element only finds it if it is there. -/
theorem find?_eq_ite {α : Type} {p : α → Bool} {xs : List α} {x : α} {c : Prop} [Decidable c]
    (hmem : c → x ∈ xs) (hp : p x = true) (unique : ∀ y ∈ xs, p y = true → c ∧ y = x) :
    xs.find? p = if c then some x else none := by
  split
  next h => exact find?_eq_some_of_unique (hmem h) hp fun y hy hpy => (unique y hy hpy).2
  next h =>
    rw [List.find?_eq_none]
    exact fun y hy hpy => h (unique y hy hpy).1

theorem toString_nat_injective {m n : Nat} (h : toString m = toString n) : m = n := by
  rw [Nat.toString_eq_ofList_toDigits, Nat.toString_eq_ofList_toDigits] at h
  have hd : Nat.toDigits 10 m = Nat.toDigits 10 n := String.ofList_injective h
  rw [← Nat.ofDigitChars_toDigits (b := 10) (n := m) (by decide) (by decide), hd,
    Nat.ofDigitChars_toDigits (by decide) (by decide)]

/-- Names with different numbers behind them are different. -/
theorem numbered_injective {name : String} {m n : Nat} (h : numbered name m = numbered name n) :
    m = n :=
  toString_nat_injective ((String.append_right_inj name).mp h)

namespace StateTable

theorem getElem?_positionGlyphs {patterns : List (List Glyph)} {length i : Nat}
    {members : List Glyph} :
    (positionGlyphs patterns length)[i]? = some members ↔
      i < length ∧ members = patterns.filterMap fun pattern => pattern[i]? := by
  rw [positionGlyphs, List.getElem?_map, Option.map_eq_some_iff]
  constructor
  · rintro ⟨k, hk, rfl⟩
    obtain ⟨hi, rfl⟩ := List.getElem?_eq_some_iff.mp hk
    rw [List.length_range] at hi
    exact ⟨hi, by rw [List.getElem_range]⟩
  · rintro ⟨hi, rfl⟩
    exact ⟨i, List.getElem?_range hi, rfl⟩

/-- A class of this name holds the glyph. -/
def Holds (t : StateTable) (name : String) (g : Glyph) : Prop :=
  ∃ c ∈ t.classes, c.name = name ∧ g ∈ c.glyphs

instance (t : StateTable) (name : String) (g : Glyph) : Decidable (t.Holds name g) :=
  inferInstanceAs (Decidable (∃ c ∈ t.classes, c.name = name ∧ g ∈ c.glyphs))

/-- The transition a state takes for a glyph. -/
def next? (t : StateTable) (state : String) (g : Glyph) : Option Transition :=
  (t.classOf? g).bind fun className => (t.route? state className).bind t.findTransition?

theorem classOf?_eq_none {t : StateTable} {g : Glyph} (h : ∀ name, ¬t.Holds name g) :
    t.classOf? g = none := by
  unfold classOf?
  rw [Option.map_eq_none_iff, List.find?_eq_none]
  intro c hc hg
  exact h c.name ⟨c, hc, rfl, by simpa using hg⟩

theorem holds_of_classOf? {t : StateTable} {g : Glyph} {name : String}
    (h : t.classOf? g = some name) : t.Holds name g := by
  obtain ⟨c, hc, rfl⟩ := Option.map_eq_some_iff.mp h
  have hg := List.find?_some hc
  exact ⟨c, List.mem_of_find?_eq_some hc, rfl, by simpa using hg⟩

/-- A glyph that one class holds is in that class. -/
theorem classOf?_eq_some {t : StateTable} {g : Glyph} {name : String} (h : t.Holds name g)
    (unique : ∀ other, t.Holds other g → other = name) : t.classOf? g = some name := by
  cases hc : t.classOf? g with
  | none =>
    obtain ⟨c, hm, _, hg⟩ := h
    rw [classOf?, Option.map_eq_none_iff, List.find?_eq_none] at hc
    exact absurd (by simpa using hg) (hc c hm)
  | some other => rw [unique other (holds_of_classOf? hc)]

theorem hasClass_of_holds {t : StateTable} {name : String} {g : Glyph} (h : t.Holds name g) :
    t.hasClass name = true := by
  obtain ⟨c, hc, hn, _⟩ := h
  exact List.any_eq_true.mpr ⟨c, hc, by simpa using hn⟩

theorem mem_insertMembers {name n : String} {members : List Glyph} {g : Glyph}
    {cs : List GlyphClass} :
    (∃ c ∈ insertMembers name members cs, c.name = n ∧ g ∈ c.glyphs) ↔
      (n = name ∧ g ∈ members) ∨ ∃ c ∈ cs, c.name = n ∧ g ∈ c.glyphs := by
  induction cs with
  | nil => simp [insertMembers, eq_comm]
  | cons d ds ih =>
    unfold insertMembers
    split
    next hd =>
      have hd' : d.name = name := by simpa using hd
      simp only [List.mem_cons, exists_eq_or_imp, mem_glyphSet, List.mem_append, hd']
      grind
    next =>
      split
      next => simp only [List.mem_cons, exists_eq_or_imp, mem_glyphSet, eq_comm]
      next =>
        simp only [List.mem_cons, exists_eq_or_imp, ih]
        exact or_left_comm

theorem holds_addClass {t : StateTable} {name n : String} {members : List Glyph} {g : Glyph} :
    (t.addClass name members).Holds n g ↔ (n = name ∧ g ∈ members) ∨ t.Holds n g := by
  unfold addClass Holds
  split
  next h =>
    have hm : members = [] := by simpa using h
    simp [hm]
  next => exact mem_insertMembers

theorem holds_addClasses {t : StateTable} {classes : List (String × List Glyph)} {n : String}
    {g : Glyph} :
    (t.addClasses classes).Holds n g ↔
      (∃ members, (n, members) ∈ classes ∧ g ∈ members) ∨ t.Holds n g := by
  unfold addClasses
  induction classes generalizing t with
  | nil => simp
  | cons c cs ih =>
    obtain ⟨name, members⟩ := c
    rw [List.foldl_cons, ih, holds_addClass]
    simp only [List.mem_cons, Prod.mk.injEq]
    grind

theorem addClass_frame (t : StateTable) (name : String) (members : List Glyph) :
    (t.addClass name members).states = t.states ∧
      (t.addClass name members).transitions = t.transitions ∧
      (t.addClass name members).substitutions = t.substitutions := by
  unfold addClass
  split <;> exact ⟨rfl, rfl, rfl⟩

theorem addClasses_frame (t : StateTable) (classes : List (String × List Glyph)) :
    (t.addClasses classes).states = t.states ∧
      (t.addClasses classes).transitions = t.transitions ∧
      (t.addClasses classes).substitutions = t.substitutions := by
  unfold addClasses
  induction classes generalizing t with
  | nil => exact ⟨rfl, rfl, rfl⟩
  | cons c cs ih =>
    have hc := addClass_frame t c.1 c.2
    obtain ⟨hs, ht, hb⟩ := ih (t.addClass c.1 c.2)
    exact ⟨hs.trans hc.1, ht.trans hc.2.1, hb.trans hc.2.2⟩

theorem addState_frame (t : StateTable) (name : String) :
    (t.addState name).classes = t.classes ∧ (t.addState name).transitions = t.transitions ∧
      (t.addState name).substitutions = t.substitutions := by
  unfold addState
  split <;> exact ⟨rfl, rfl, rfl⟩

theorem addStates_frame (t : StateTable) (names : List String) :
    (t.addStates names).classes = t.classes ∧ (t.addStates names).transitions = t.transitions ∧
      (t.addStates names).substitutions = t.substitutions := by
  unfold addStates
  induction names generalizing t with
  | nil => exact ⟨rfl, rfl, rfl⟩
  | cons n ns ih =>
    have hn := addState_frame t n
    obtain ⟨hs, ht, hb⟩ := ih (t.addState n)
    exact ⟨hs.trans hn.1, ht.trans hn.2.1, hb.trans hn.2.2⟩

theorem addRoute_frame (t : StateTable) (state className transition : String) :
    (t.addRoute state className transition).classes = t.classes ∧
      (t.addRoute state className transition).transitions = t.transitions ∧
      (t.addRoute state className transition).substitutions = t.substitutions := by
  unfold addRoute addRoute?
  split
  next => exact ⟨rfl, rfl, rfl⟩
  next => exact addState_frame t state

theorem addRoutes_frame (t : StateTable) (routes : List Route) :
    (t.addRoutes routes).classes = t.classes ∧
      (t.addRoutes routes).transitions = t.transitions ∧
      (t.addRoutes routes).substitutions = t.substitutions := by
  unfold addRoutes
  induction routes generalizing t with
  | nil => exact ⟨rfl, rfl, rfl⟩
  | cons r rs ih =>
    have hr := addRoute_frame t r.state r.className r.transition
    obtain ⟨hs, ht, hb⟩ := ih (t.addRoute r.state r.className r.transition)
    exact ⟨hs.trans hr.1, ht.trans hr.2.1, hb.trans hr.2.2⟩

theorem addTransition_frame (t : StateTable) (name next : String) (actions : List Action) :
    (t.addTransition name next actions).classes = t.classes ∧
      (t.addTransition name next actions).states = t.states ∧
      (t.addTransition name next actions).substitutions = t.substitutions := by
  unfold addTransition
  split <;> exact ⟨rfl, rfl, rfl⟩

theorem addTransitions_frame (t : StateTable) (transitions : List Transition) :
    (t.addTransitions transitions).classes = t.classes ∧
      (t.addTransitions transitions).states = t.states ∧
      (t.addTransitions transitions).substitutions = t.substitutions := by
  unfold addTransitions
  induction transitions generalizing t with
  | nil => exact ⟨rfl, rfl, rfl⟩
  | cons r rs ih =>
    have hr := addTransition_frame t r.name r.next r.actions
    obtain ⟨hc, hs, hb⟩ := ih (t.addTransition r.name r.next r.actions)
    exact ⟨hc.trans hr.1, hs.trans hr.2.1, hb.trans hr.2.2⟩

theorem findState?_addState (t : StateTable) (name s : String) :
    (t.addState name).findState? s =
      (t.findState? s).or (if name = s then some { name } else none) := by
  unfold addState
  split
  next h =>
    by_cases hs : name = s
    · subst hs
      obtain ⟨x, hx⟩ := Option.isSome_iff_exists.mp h
      simp [hx]
    · simp [hs]
  next =>
    unfold findState?
    rw [List.find?_append]
    by_cases hs : name = s <;> simp [hs]

theorem route?_addState (t : StateTable) (name s c : String) :
    (t.addState name).route? s c = t.route? s c := by
  unfold route?
  rw [findState?_addState]
  cases t.findState? s with
  | some x => rfl
  | none => by_cases h : name = s <;> simp [h]

theorem route?_addStates (t : StateTable) (names : List String) (s c : String) :
    (t.addStates names).route? s c = t.route? s c := by
  unfold addStates
  induction names generalizing t with
  | nil => rfl
  | cons n ns ih => rw [List.foldl_cons, ih, route?_addState]

/-- Adding an entry to the states of one name changes no name. -/
theorem find?_map_entries (states : List State) (state s c tr : String) :
    (states.map fun x =>
      if x.name == state then { x with entries := x.entries ++ [(c, tr)] } else x).find?
        (fun x => x.name == s) =
      (states.find? fun x => x.name == s).map fun x =>
        if x.name == state then { x with entries := x.entries ++ [(c, tr)] } else x := by
  rw [List.find?_map]
  congr 2
  funext x
  by_cases h : x.name = state <;> simp [h]

theorem route?_addRoute (t : StateTable) (state className transition s c : String) :
    (t.addRoute state className transition).route? s c =
      (t.route? s c).or
        (if t.hasClass className ∧ state = s ∧ className = c then some transition else none) := by
  unfold addRoute addRoute?
  split
  next h =>
    simp only [Bool.or_eq_true, Bool.not_eq_true', Option.isSome_iff_exists] at h
    by_cases hc : t.hasClass className ∧ state = s ∧ className = c
    · obtain ⟨hc, rfl, rfl⟩ := hc
      obtain ⟨x, hx⟩ := h.resolve_left (by simp [hc])
      simp [hx]
    · simp [hc]
  next h =>
    simp only [Bool.or_eq_true, Bool.not_eq_true', not_or, Bool.not_eq_false] at h
    have hr := route?_addState t state s c
    simp only [Option.getD_some, h.1, true_and]
    unfold route? at hr ⊢
    rw [← hr]
    simp only [findState?, find?_map_entries]
    cases hf : (t.addState state).states.find? fun x => x.name == s with
    | none =>
      have hs : state ≠ s := by
        rintro rfl
        have hfs := findState?_addState t state state
        rw [findState?, hf] at hfs
        cases ht : t.findState? state <;> simp [ht] at hfs
      simp [hs]
    | some x =>
      have hx : x.name = s := by simpa using List.find?_some hf
      by_cases hs : state = s
      · by_cases hc : className = c
        · simp [hs, hc, hx, List.lookup_append]
        · have hb : (c == className) = false := beq_false_of_ne (Ne.symm hc)
          simp [hs, hc, hx, List.lookup_append, List.lookup_cons, hb]
      · have hb : ¬x.name = state := by rw [hx]; exact Ne.symm hs
        simp [hs, hb]

theorem route?_addRoutes (t : StateTable) (routes : List Route) (s c : String) :
    (t.addRoutes routes).route? s c =
      (t.route? s c).or (if t.hasClass c then
        (routes.find? fun r => r.state == s && r.className == c).map Route.transition else none) := by
  unfold addRoutes
  induction routes generalizing t with
  | nil => simp
  | cons r rs ih =>
    have hc : (t.addRoute r.state r.className r.transition).hasClass c = t.hasClass c := by
      rw [hasClass, (addRoute_frame t r.state r.className r.transition).1, hasClass]
    rw [List.foldl_cons, ih, route?_addRoute, hc, List.find?_cons]
    by_cases hr : r.state = s ∧ r.className = c
    · obtain ⟨rfl, rfl⟩ := hr
      cases t.route? r.state r.className <;> cases t.hasClass r.className <;> simp
    · have hb : (r.state == s && r.className == c) = false := by simpa using hr
      simp [hr, hb]

theorem findTransition?_addTransition (t : StateTable) (tr : Transition) (name : String) :
    (t.addTransition tr.name tr.next tr.actions).findTransition? name =
      (t.findTransition? name).or (if tr.name = name then some tr else none) := by
  unfold addTransition
  split
  next h =>
    by_cases hn : tr.name = name
    · subst hn
      obtain ⟨x, hx⟩ := Option.isSome_iff_exists.mp h
      simp [hx]
    · simp [hn]
  next =>
    unfold findTransition?
    rw [List.find?_append]
    by_cases hn : tr.name = name
    · subst hn; simp
    · simp [hn]

theorem findTransition?_addTransitions (t : StateTable) (transitions : List Transition)
    (name : String) :
    (t.addTransitions transitions).findTransition? name =
      (t.findTransition? name).or (transitions.find? fun tr => tr.name == name) := by
  unfold addTransitions
  induction transitions generalizing t with
  | nil => simp
  | cons tr rest ih =>
    rw [List.foldl_cons, ih, findTransition?_addTransition, List.find?_cons]
    by_cases hn : tr.name = name
    · simp [hn]
    · have hb : (tr.name == name) = false := beq_false_of_ne hn
      simp [hn, hb]

section Build

variable {classes : List (String × List Glyph)} {states : List String} {routes : List Route}
  {transitions : List Transition}

theorem build_classes :
    (build classes states routes transitions).classes = (new.addClasses classes).classes := by
  unfold build
  rw [(addTransitions_frame _ _).1, (addRoutes_frame _ _).1, (addStates_frame _ _).1]

theorem build_substitutions : (build classes states routes transitions).substitutions = [] := by
  unfold build
  rw [(addTransitions_frame _ _).2.2, (addRoutes_frame _ _).2.2, (addStates_frame _ _).2.2,
    (addClasses_frame _ _).2.2]
  rfl

theorem holds_build {n : String} {g : Glyph} :
    (build classes states routes transitions).Holds n g ↔
      ∃ members, (n, members) ∈ classes ∧ g ∈ members := by
  unfold Holds
  rw [build_classes]
  have h : (new.addClasses classes).Holds n g ↔ _ := holds_addClasses
  simpa [Holds, new] using h

theorem route?_build (s : String) {c : String}
    (hc : (build classes states routes transitions).hasClass c = true) :
    (build classes states routes transitions).route? s c =
      (routes.find? fun r => r.state == s && r.className == c).map Route.transition := by
  rw [hasClass, build_classes] at hc
  have hs : ((new.addClasses classes).addStates states).hasClass c = true := by
    rw [hasClass, (addStates_frame _ _).1, hc]
  have hn : ((new.addClasses classes).addStates states).route? s c = none := by
    rw [route?_addStates, route?, findState?, (addClasses_frame _ _).1]
    by_cases h : start = s <;> simp [new, h]
  unfold build
  rw [route?, findState?, (addTransitions_frame _ _).2.1, ← findState?, ← route?,
    route?_addRoutes, hs, hn]
  simp

theorem findTransition?_build (name : String) :
    (build classes states routes transitions).findTransition? name =
      transitions.find? fun tr => tr.name == name := by
  unfold build
  rw [findTransition?_addTransitions, findTransition?, (addRoutes_frame _ _).2.1,
    (addStates_frame _ _).2.1, (addClasses_frame _ _).2.1]
  simp [new]

/-- A built table takes the first transition that its first route for the class of a glyph names. -/
theorem next?_build (state : String) (g : Glyph) :
    (build classes states routes transitions).next? state g =
      ((build classes states routes transitions).classOf? g).bind fun name =>
        (routes.find? fun r => r.state == state && r.className == name).bind fun r =>
          transitions.find? fun tr => tr.name == r.transition := by
  rw [next?]
  cases h : (build classes states routes transitions).classOf? g with
  | none => rfl
  | some name =>
    have hc := hasClass_of_holds (holds_of_classOf? h)
    rw [Option.bind_some, Option.bind_some, route?_build state hc]
    cases routes.find? fun r => r.state == state && r.className == name with
    | none => rfl
    | some r => exact findTransition?_build r.transition

theorem next?_eq_none {t : StateTable} {state : String} {g : Glyph}
    (h : ∀ name, ¬t.Holds name g) : t.next? state g = none := by
  rw [next?, classOf?_eq_none h, Option.bind_none]

end Build

end StateTable

end Metamorphosis
