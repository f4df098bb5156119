import Mathlib.Data.Finset.Card
import Mathlib.Data.Finset.Dedup
import Metamorphosis.Proofs.StateTable.Closed
import Metamorphosis.Proofs.StateTable.Edits

namespace Metamorphosis

namespace Progress

variable {roles : List Role} {known found : Finset Progress} {P : Progress → Prop}

/-- Add what the moves out of a state lead to, if the state is known. -/
def visit (roles : List Role) (known : Finset Progress) (p : Progress) : Finset Progress :=
  if p ∈ known then known ∪ ((p.moves roles).map fun x => x.2.next).toFinset else known

/-- Visit the states one after another. What one of them adds is known to those after it. -/
def pass (roles : List Role) (known : Finset Progress) : Finset Progress :=
  Progress.all.foldl (visit roles) known

/-- A search makes passes until one adds nothing. The number of its passes is counted. -/
inductive Search (roles : List Role) : Finset Progress → Nat → Finset Progress → Prop
  | last {known : Finset Progress} (h : (pass roles known).card = known.card) :
    Search roles known 1 (pass roles known)
  | more {known found : Finset Progress} {n : Nat} (h : (pass roles known).card ≠ known.card)
    (rest : Search roles (pass roles known) n found) : Search roles known (n + 1) found

/-- Moves lead from states with the property to states with the property. -/
def ClosedUnder (roles : List Role) (P : Progress → Prop) : Prop :=
  ∀ p, P p → ∀ r ∈ roles, (p.move r).isIdle = false → P (p.move r).next

theorem mem_visit {p q : Progress} :
    q ∈ visit roles known p ↔
      q ∈ known ∨ p ∈ known ∧ ∃ r ∈ roles, (p.move r).isIdle = false ∧ (p.move r).next = q := by
  unfold visit
  split
  next hp =>
    simp only [Finset.mem_union, List.mem_toFinset, List.mem_map, Prod.exists, mem_moves, hp,
      true_and]
    grind
  next hp => simp [hp]

theorem subset_foldl_visit (ps : List Progress) (known : Finset Progress) :
    known ⊆ ps.foldl (visit roles) known := by
  induction ps generalizing known with
  | nil => exact Finset.Subset.refl known
  | cons p ps ih =>
    intro q hq
    exact ih (visit roles known p) (mem_visit.mpr (Or.inl hq))

theorem subset_pass : known ⊆ pass roles known :=
  subset_foldl_visit Progress.all known

theorem next_mem_foldl_visit {ps : List Progress} {p : Progress} (hp : p ∈ ps) (hk : p ∈ known)
    {r : Role} (hr : r ∈ roles) (hm : (p.move r).isIdle = false) :
    (p.move r).next ∈ ps.foldl (visit roles) known := by
  induction ps generalizing known with
  | nil => cases hp
  | cons q ps ih =>
    rcases List.mem_cons.mp hp with rfl | hp
    · exact subset_foldl_visit ps _ (mem_visit.mpr (Or.inr ⟨hk, r, hr, hm, rfl⟩))
    · exact ih hp (mem_visit.mpr (Or.inl hk))

theorem next_mem_pass {p : Progress} (hk : p ∈ known) {r : Role} (hr : r ∈ roles)
    (hm : (p.move r).isIdle = false) : (p.move r).next ∈ pass roles known :=
  next_mem_foldl_visit (mem_all p) hk hr hm

/-- A pass adds no state without the property. -/
theorem forall_mem_pass (hclosed : ClosedUnder roles P) (hk : ∀ p ∈ known, P p) :
    ∀ p ∈ pass roles known, P p := by
  refine List.foldlRecOn Progress.all (visit roles) (motive := fun s => ∀ p ∈ s, P p) hk ?_
  intro s hs p _ q hq
  rcases mem_visit.mp hq with hq | ⟨hp, r, hr, hm, rfl⟩
  · exact hs q hq
  · exact hclosed p (hs p hp) r hr hm

theorem card_le_all (known : Finset Progress) : known.card ≤ Progress.all.length := by
  have hall : known ⊆ Progress.all.toFinset := fun p _ => List.mem_toFinset.mpr (mem_all p)
  exact (Finset.card_le_card hall).trans (List.toFinset_card_le _)

/-- Every search ends, after at most one pass more than there are states to add. -/
theorem search_ends (roles : List Role) (known : Finset Progress) :
    ∃ n found, n + known.card ≤ Progress.all.length + 1 ∧ Search roles known n found := by
  -- a pass that is not the last adds a state, and there are not that many
  by_cases h : (pass roles known).card = known.card
  · have hle := card_le_all known
    exact ⟨1, _, by omega, .last h⟩
  · have hlt : known.card < (pass roles known).card :=
      lt_of_le_of_ne (Finset.card_le_card subset_pass) (Ne.symm h)
    have hle := card_le_all (pass roles known)
    obtain ⟨n, found, hn, hs⟩ := search_ends roles (pass roles known)
    exact ⟨n + 1, found, by omega, .more h hs⟩
termination_by Progress.all.length - known.card

namespace Search

variable {n : Nat}

theorem subset (h : Search roles known n found) : known ⊆ found := by
  induction h with
  | last _ => exact subset_pass
  | more _ _ ih => exact subset_pass.trans ih

/-- A search ends with states that lead to none but themselves. -/
theorem closed (h : Search roles known n found) : ClosedUnder roles (· ∈ found) := by
  induction h with
  | last h =>
    intro p hp r hr hm
    -- what the last pass leaves is what it was given
    have hsame := Finset.eq_of_subset_of_card_le subset_pass h.le
    exact next_mem_pass (hsame ▸ hp) hr hm
  | more _ _ ih => exact ih

theorem forall_mem (h : Search roles known n found) (hclosed : ClosedUnder roles P)
    (hk : ∀ p ∈ known, P p) : ∀ p ∈ found, P p := by
  induction h with
  | last _ => exact forall_mem_pass hclosed hk
  | more _ _ ih => exact ih (forall_mem_pass hclosed hk)

end Search

theorem forall_mem_reachable (hclosed : ClosedUnder roles P) (hstart : P ⟨false, false⟩) :
    ∀ p ∈ reachable roles, P p := by
  have hwithin : ∀ n, ∀ p ∈ within roles n, P p := by
    intro n
    induction n with
    | zero =>
      intro p hp
      rw [List.mem_singleton.mp hp]
      exact hstart
    | succ n ih =>
      intro p hp
      rcases mem_widen.mp hp with hp | ⟨q, hq, r, hr, hm, rfl⟩
      · exact ih p hp
      · exact hclosed q (ih q hq) r hr hm
  exact hwithin Progress.all.length

/-- A search from the start finds the reachable states. -/
theorem Search.mem_iff {n : Nat} (h : Search roles {⟨false, false⟩} n found) {p : Progress} :
    p ∈ found ↔ p ∈ reachable roles := by
  constructor
  · intro hp
    refine h.forall_mem (P := (· ∈ reachable roles)) ?_ ?_ p hp
    · exact fun q hq r hr _ => next_mem_reachable hq (Or.inl hr)
    · intro q hq
      rw [Finset.mem_singleton.mp hq]
      exact start_mem_reachable
  · exact forall_mem_reachable h.closed (h.subset (Finset.mem_singleton_self _)) p

theorem after_congr {role role' : Nat → Role} {n : Nat} (h : ∀ i, i < n → role i = role' i) :
    after role n = after role' n := by
  induction n with
  | zero => rfl
  | succ n ih => rw [after, after, ih fun i hi => h i (by omega), h n (by omega)]

end Progress

namespace StateTable

section Between

variable {firsts seconds : List Glyph} {entries : List (Glyph × Glyph)}

theorem exists_glyph_of_role {r : Role} (h : r ∈ betweenRoles firsts seconds entries) :
    ∃ g ∈ firsts ++ seconds ++ entries.map Prod.fst, betweenRole firsts seconds entries g = r := by
  obtain ⟨_, hne⟩ := List.mem_filter.mp h
  rw [Bool.not_eq_true', List.isEmpty_eq_false_iff] at hne
  obtain ⟨g, hg⟩ := List.exists_mem_of_ne_nil _ hne
  exact ⟨g, mem_betweenMembers.mp hg⟩

theorem mem_names_between {name : String} :
    name ∈ (between firsts seconds entries).states.map State.name ↔
      ∃ p ∈ Progress.reachable (betweenRoles firsts seconds entries), p.stateName = name := by
  rw [between_eq, addSubstitution_states]
  constructor
  · intro h
    rcases name_of_build h with rfl | h | ⟨route, hr, rfl⟩
    · exact ⟨⟨false, false⟩, Progress.start_mem_reachable, rfl⟩
    · exact List.mem_map.mp h
    · obtain ⟨⟨p, r, m⟩, hstep, rfl⟩ := List.mem_map.mp hr
      exact ⟨p, (mem_betweenSteps.mp hstep).1, rfl⟩
  · rintro ⟨p, hp, rfl⟩
    exact (build_names _ _ _ _).2 _ (List.mem_map_of_mem hp)

theorem state_headAfter_between (run : List Glyph) {n : Nat} (hn : n ≤ run.length) :
    ((between firsts seconds entries).headAfter run n).state =
      (Progress.after (roleAt firsts seconds entries run) n).stateName := by
  refine headAfter_state
    (fun n => (Progress.after (roleAt firsts seconds entries run) n).stateName) rfl ?_ hn
  intro n g hg
  rw [reaction_between (after_mem_reachable run n), ← roleAt_of_getElem? hg]
  rfl

theorem roleAt_append_left {run more : List Glyph} {i : Nat} (hi : i < run.length) :
    roleAt firsts seconds entries (run ++ more) i = roleAt firsts seconds entries run i := by
  rw [roleAt, List.getElem?_append_left hi, roleAt]

theorem after_append (run more : List Glyph) :
    Progress.after (roleAt firsts seconds entries (run ++ more)) run.length =
      Progress.after (roleAt firsts seconds entries run) run.length :=
  Progress.after_congr fun _ hi => roleAt_append_left hi

/-- Every reachable state is the one that some run ends in. -/
theorem exists_run_of_reachable {p : Progress}
    (hp : p ∈ Progress.reachable (betweenRoles firsts seconds entries)) :
    ∃ run : List Glyph, Progress.after (roleAt firsts seconds entries run) run.length = p := by
  refine Progress.forall_mem_reachable (P := fun p => ∃ run : List Glyph,
    Progress.after (roleAt firsts seconds entries run) run.length = p) ?_ ⟨[], rfl⟩ p hp
  rintro q ⟨run, rfl⟩ r hr _
  obtain ⟨g, _, rfl⟩ := exists_glyph_of_role hr
  have hlast : (run ++ [g])[run.length]? = some g := by simp
  refine ⟨run ++ [g], ?_⟩
  rw [List.length_append, List.length_singleton, Progress.after, after_append,
    roleAt_of_getElem? hlast]

/-- The states of the table are the start and those that runs end in. -/
theorem mem_names_between_iff_run {name : String} :
    name ∈ (between firsts seconds entries).states.map State.name ↔
      name = start ∨ ∃ run : List Glyph,
        ((between firsts seconds entries).headAfter run run.length).state = name := by
  rw [mem_names_between]
  constructor
  · rintro ⟨p, hp, rfl⟩
    obtain ⟨run, rfl⟩ := exists_run_of_reachable hp
    exact Or.inr ⟨run, state_headAfter_between run (Nat.le_refl _)⟩
  · rintro (rfl | ⟨run, rfl⟩)
    · exact ⟨⟨false, false⟩, Progress.start_mem_reachable, rfl⟩
    · exact ⟨_, after_mem_reachable run run.length,
        (state_headAfter_between run (Nat.le_refl _)).symm⟩

/-- Every transition is that of a move out of a reachable state. -/
theorem move_of_between_transition {tr : Transition}
    (h : tr ∈ (between firsts seconds entries).transitions) :
    ∃ p ∈ Progress.reachable (betweenRoles firsts seconds entries),
      ∃ r ∈ betweenRoles firsts seconds entries,
        (p.move r).isIdle = false ∧ tr = (p.move r).transition := by
  rw [between_eq, addSubstitution_transitions] at h
  obtain ⟨⟨p, r, m⟩, hstep, rfl⟩ := List.mem_map.mp (mem_build_transitions h)
  obtain ⟨hp, hr, rfl, hm⟩ := mem_betweenSteps.mp hstep
  exact ⟨p, hp, r, hr, hm, rfl⟩

section Move

variable {p : Progress} {r : Role}
  (hp : p ∈ Progress.reachable (betweenRoles firsts seconds entries))
  (hr : r ∈ betweenRoles firsts seconds entries) (hm : (p.move r).isIdle = false)

include hp hr hm

/-- The state of a move has an entry for it. -/
theorem route?_between :
    (between firsts seconds entries).route? p.stateName r.className =
      some (p.move r).transitionName := by
  obtain ⟨g, hg, hrole⟩ := exists_glyph_of_role hr
  have hholds : (between firsts seconds entries).Holds r.className g :=
    holds_between.mpr ⟨hg, by rw [hrole]⟩
  have hclass := hasClass_of_holds hholds
  rw [between_eq, hasClass_addSubstitution] at hclass
  rw [between_eq, route?_addSubstitution, route?_build p.stateName hclass,
    find?_betweenRoutes hp hr, if_neg (by simp [hm]), Option.map_some]

/-- Some run makes the move. -/
theorem exists_run_takes :
    ∃ (run : List Glyph) (i : Nat), (between firsts seconds entries).transitionAt?
      ((between firsts seconds entries).headAfter run i) i = some (p.move r).transition := by
  obtain ⟨run, rfl⟩ := exists_run_of_reachable hp
  obtain ⟨g, _, rfl⟩ := exists_glyph_of_role hr
  have hlast : (run ++ [g])[run.length]? = some g := by simp
  refine ⟨run ++ [g], run.length, ?_⟩
  rw [transitionAt?_headAfter, hlast, Option.bind_some, state_headAfter_between _ (by simp),
    after_append, next?_between hp, if_neg (by simp [hm])]

end Move

end Between

end StateTable

/-- The roles that the glyphs of `between` rules have in their table. -/
def rolesOf (rules : List GlyphRule) : List Role :=
  StateTable.betweenRoles ((rules.filterMap GlyphRule.sides?).flatMap Prod.fst)
    ((rules.filterMap GlyphRule.sides?).flatMap Prod.snd) (firstReplacements (substitutions rules))

/-- The states in the subtable of `between` rules with one glyph on each side are those that a
search from the start finds, in no more passes than there are states to find. They are the start
and the states that runs end in. Every transition is routed from one of them, and some run takes
it. -/
theorem between_states_entered (rules : List GlyphRule) (s : Session) :
    ∃ table s', (RuleGroup.between rules).subtables.exec s =
        (.ok [⟨"between", .contextual table⟩], s') ∧
      (∃ passes found, passes ≤ Progress.all.length ∧
        Progress.Search (rolesOf rules) {⟨false, false⟩} passes found ∧
        ∀ name, name ∈ table.states.map State.name ↔ ∃ p ∈ found, p.stateName = name) ∧
      (∀ name, name ∈ table.states.map State.name ↔
        name = StateTable.start ∨
          ∃ run : List Glyph, (table.headAfter run run.length).state = name) ∧
      ∀ tr ∈ table.transitions,
        (∃ state ∈ table.states, ∃ className, (className, tr.name) ∈ state.entries) ∧
          ∃ (run : List Glyph) (i : Nat),
            table.transitionAt? (table.headAfter run i) i = some tr := by
  obtain ⟨s', hexec⟩ := returns_between rules s
  refine ⟨_, s', hexec, ?_, fun name => StateTable.mem_names_between_iff_run, ?_⟩
  · obtain ⟨passes, found, hpasses, hsearch⟩ :=
      Progress.search_ends (rolesOf rules) {⟨false, false⟩}
    rw [Finset.card_singleton] at hpasses
    refine ⟨passes, found, by omega, hsearch, fun name => ?_⟩
    simp only [hsearch.mem_iff]
    exact StateTable.mem_names_between
  · intro tr htr
    obtain ⟨p, hp, r, hr, hm, rfl⟩ := StateTable.move_of_between_transition htr
    obtain ⟨state, hstate, _, hentry⟩ :=
      StateTable.entry_of_route? (StateTable.route?_between hp hr hm)
    exact ⟨⟨state, hstate, r.className, hentry⟩, StateTable.exists_run_takes hp hr hm⟩

end Metamorphosis
