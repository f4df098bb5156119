import Metamorphosis.Proofs.Session
import Metamorphosis.Proofs.StateTable.Run
import Metamorphosis.RuleGroup.Subtables

namespace Metamorphosis

theorem Role.className_injective {r r' : Role} (h : r.className = r'.className) : r = r' := by
  obtain ⟨f, s, t⟩ := r
  obtain ⟨f', s', t'⟩ := r'
  revert f s t f' s' t'
  decide

theorem Progress.stateName_injective {p p' : Progress} (h : p.stateName = p'.stateName) :
    p = p' := by
  obtain ⟨f, m⟩ := p
  obtain ⟨f', m'⟩ := p'
  revert f m f' m'
  decide

theorem Move.transitionName_injective {m m' : Move} (h : m.transitionName = m'.transitionName) :
    m = m' := by
  obtain ⟨c, m, f⟩ := m
  obtain ⟨c', m', f'⟩ := m'
  revert c m f c' m' f'
  decide

theorem Role.mem_all {r : Role} (h : r.first = true ∨ r.second = true ∨ r.target = true) :
    r ∈ Role.all := by
  obtain ⟨f, s, t⟩ := r
  revert f s t
  decide

theorem Progress.mem_all (p : Progress) : p ∈ Progress.all := by
  obtain ⟨f, m⟩ := p
  revert f m
  decide

namespace Progress

variable {roles : List Role}

theorem mem_moves {p : Progress} {r : Role} {m : Move} :
    (r, m) ∈ p.moves roles ↔ r ∈ roles ∧ m = p.move r ∧ m.isIdle = false := by
  unfold moves
  simp only [List.mem_filter, List.mem_map, Prod.mk.injEq, Bool.not_eq_true']
  constructor
  · rintro ⟨⟨r', hr, rfl, rfl⟩, hm⟩
    exact ⟨hr, rfl, hm⟩
  · rintro ⟨hr, rfl, hm⟩
    exact ⟨⟨r, hr, rfl, rfl⟩, hm⟩

theorem mem_widen {known : List Progress} {p : Progress} :
    p ∈ widen roles known ↔
      p ∈ known ∨ ∃ q ∈ known, ∃ r ∈ roles, (q.move r).isIdle = false ∧ (q.move r).next = p := by
  unfold widen
  simp only [List.mem_filter, mem_all, true_and, Bool.or_eq_true, List.contains_iff_mem,
    List.any_eq_true, Prod.exists, mem_moves, beq_iff_eq]
  constructor
  · rintro (h | ⟨q, hq, r, m, ⟨hr, rfl, hm⟩, hn⟩)
    · exact Or.inl h
    · exact Or.inr ⟨q, hq, r, hr, hm, hn⟩
  · rintro (h | ⟨q, hq, r, hr, hm, hn⟩)
    · exact Or.inl h
    · exact Or.inr ⟨q, hq, r, q.move r, ⟨hr, rfl, hm⟩, hn⟩

theorem widen_mono {known known' : List Progress} (h : known ⊆ known') :
    List.Sublist (widen roles known) (widen roles known') := by
  unfold widen
  apply List.monotone_filter_right
  intro p hp
  simp only [Bool.or_eq_true, List.contains_iff_mem, List.any_eq_true] at hp ⊢
  rcases hp with hp | ⟨q, hq, hm⟩
  · exact Or.inl (h hp)
  · exact Or.inr ⟨q, h hq, hm⟩

/-- The states that `n` rounds reach. -/
def within (roles : List Role) (n : Nat) : List Progress :=
  Nat.repeat (widen roles) n [⟨false, false⟩]

theorem within_sublist_succ (n : Nat) :
    List.Sublist (within roles n) (within roles (n + 1)) := by
  induction n with
  | zero =>
    have h : (⟨false, false⟩ : Progress) ∈ within roles 1 :=
      mem_widen.mpr (Or.inl (List.mem_singleton.mpr rfl))
    exact List.singleton_sublist.mpr h
  | succ n ih => exact widen_mono ih.subset

/-- A round that adds nothing is the last one, so until then each adds a state. -/
theorem within_grows (n : Nat) :
    within roles (n + 1) = within roles n ∨ n + 1 < (within roles (n + 1)).length := by
  by_cases he : within roles (n + 1) = within roles n
  · exact Or.inl he
  · right
    have hlt : (within roles n).length < (within roles (n + 1)).length := by
      by_contra h
      exact he ((within_sublist_succ n).eq_of_length_le (Nat.le_of_not_lt h)).symm
    cases n with
    | zero => exact hlt
    | succ n =>
      have hn := (within_grows n).resolve_left (fun h => he (congrArg (widen roles) h))
      omega

theorem reachable_widen : widen roles (reachable roles) = reachable roles := by
  have hl : (within roles (4 + 1)).length ≤ Progress.all.length := List.length_filter_le _ _
  have h4 : Progress.all.length = 4 := rfl
  exact (within_grows 4).resolve_right (by omega)

theorem start_mem_reachable : (⟨false, false⟩ : Progress) ∈ reachable roles := by
  have h : ∀ n, (⟨false, false⟩ : Progress) ∈ within roles n := by
    intro n
    induction n with
    | zero => exact List.mem_singleton.mpr rfl
    | succ n ih => exact (within_sublist_succ n).subset ih
  exact h _

/-- From a reachable state every glyph leads to a reachable state. -/
theorem next_mem_reachable {p : Progress} (hp : p ∈ reachable roles) {r : Role}
    (hr : r ∈ roles ∨ (p.move r).isIdle = true) : (p.move r).next ∈ reachable roles := by
  cases hm : (p.move r).isIdle with
  | true =>
    have hn : (p.move r).next = ⟨false, false⟩ := by
      revert hm
      cases p.move r with
      | mk c m f => cases c <;> cases m <;> cases f <;> simp [Move.isIdle, Move.next]
    rw [hn]
    exact start_mem_reachable
  | false =>
    rw [← reachable_widen]
    exact mem_widen.mpr (Or.inr ⟨p, hp, r, hr.resolve_right (by simp [hm]), hm, rfl⟩)

/-- What a run remembers after its first `n` glyphs, given the roles of the glyphs. -/
def after (role : Nat → Role) : Nat → Progress
  | 0 => ⟨false, false⟩
  | n + 1 => ((after role n).move (role n)).next

end Progress

theorem Move.stateName_next_of_idle {m : Move} (h : m.isIdle = true) :
    m.next.stateName = StateTable.start ∧ m.actions = [] := by
  obtain ⟨c, m, f⟩ := m
  revert c m f
  decide

namespace StateTable

section Between

variable (firsts seconds : List Glyph) (entries : List (Glyph × Glyph))

/-- The roles of a glyph in the table. -/
def betweenRole (g : Glyph) : Role :=
  Role.of firsts seconds (entries.map Prod.fst) g

def betweenMembers (r : Role) : List Glyph :=
  (glyphSet (firsts ++ seconds ++ entries.map Prod.fst)).filter fun g =>
    betweenRole firsts seconds entries g == r

/-- The roles that glyphs of the table have. -/
def betweenRoles : List Role :=
  Role.all.filter fun r => !(betweenMembers firsts seconds entries r).isEmpty

/-- The moves out of each state of the table. -/
def betweenSteps : List (Progress × Role × Move) :=
  (Progress.reachable (betweenRoles firsts seconds entries)).flatMap fun p =>
    (p.moves (betweenRoles firsts seconds entries)).map fun (r, m) => (p, r, m)

theorem between_eq :
    between firsts seconds entries =
      (build
        ((betweenRoles firsts seconds entries).map fun r =>
          (r.className, betweenMembers firsts seconds entries r))
        ((Progress.reachable (betweenRoles firsts seconds entries)).map Progress.stateName)
        ((betweenSteps firsts seconds entries).map fun (p, r, m) =>
          ⟨p.stateName, r.className, m.transitionName⟩)
        ((betweenSteps firsts seconds entries).map fun (_, _, m) => m.transition)).addSubstitution
          "Subst" entries := rfl

variable {firsts seconds entries}

theorem mem_betweenMembers {r : Role} {g : Glyph} :
    g ∈ betweenMembers firsts seconds entries r ↔
      g ∈ firsts ++ seconds ++ entries.map Prod.fst ∧ betweenRole firsts seconds entries g = r := by
  unfold betweenMembers
  rw [List.mem_filter, mem_glyphSet, beq_iff_eq]

theorem mem_betweenSteps {p : Progress} {r : Role} {m : Move} :
    (p, r, m) ∈ betweenSteps firsts seconds entries ↔
      p ∈ Progress.reachable (betweenRoles firsts seconds entries) ∧
        r ∈ betweenRoles firsts seconds entries ∧ m = p.move r ∧ m.isIdle = false := by
  unfold betweenSteps
  simp only [List.mem_flatMap, List.mem_map, Prod.exists, Progress.mem_moves, Prod.mk.injEq]
  constructor
  · rintro ⟨p', hp, r', m', h, rfl, rfl, rfl⟩
    exact ⟨hp, h⟩
  · rintro ⟨hp, h⟩
    exact ⟨p, hp, r, m, h, rfl, rfl, rfl⟩

theorem betweenRole_eq_none {g : Glyph} (h : g ∉ firsts ++ seconds ++ entries.map Prod.fst) :
    betweenRole firsts seconds entries g = ⟨false, false, false⟩ := by
  simp only [List.mem_append, not_or] at h
  simp [betweenRole, Role.of, h]

theorem betweenRole_mem_roles {g : Glyph} (h : g ∈ firsts ++ seconds ++ entries.map Prod.fst) :
    betweenRole firsts seconds entries g ∈ betweenRoles firsts seconds entries := by
  unfold betweenRoles
  rw [List.mem_filter]
  constructor
  · apply Role.mem_all
    simpa [betweenRole, Role.of, or_assoc] using h
  · have hg : g ∈ betweenMembers firsts seconds entries (betweenRole firsts seconds entries g) :=
      mem_betweenMembers.mpr ⟨h, rfl⟩
    rw [Bool.not_eq_true', List.isEmpty_eq_false_iff]
    exact List.ne_nil_of_mem hg

/-- Each glyph of the table is in the class of its roles and in no other. -/
theorem holds_between {name : String} {g : Glyph} :
    (between firsts seconds entries).Holds name g ↔
      g ∈ firsts ++ seconds ++ entries.map Prod.fst ∧
        name = (betweenRole firsts seconds entries g).className := by
  rw [between_eq]
  refine holds_build.trans ⟨?_, ?_⟩
  · rintro ⟨members, hm, hg⟩
    obtain ⟨r, _, he⟩ := List.mem_map.mp hm
    obtain ⟨rfl, rfl⟩ := Prod.mk.inj he
    obtain ⟨hn, rfl⟩ := mem_betweenMembers.mp hg
    exact ⟨hn, rfl⟩
  · rintro ⟨hn, rfl⟩
    exact ⟨_, List.mem_map_of_mem (betweenRole_mem_roles hn), mem_betweenMembers.mpr ⟨hn, rfl⟩⟩

theorem find?_betweenRoutes {p : Progress}
    (hp : p ∈ Progress.reachable (betweenRoles firsts seconds entries)) {r : Role}
    (hr : r ∈ betweenRoles firsts seconds entries) :
    ((betweenSteps firsts seconds entries).map fun (p, r, m) =>
      (⟨p.stateName, r.className, m.transitionName⟩ : Route)).find?
        (fun x => x.state == p.stateName && x.className == r.className) =
      if (p.move r).isIdle then none
      else some ⟨p.stateName, r.className, (p.move r).transitionName⟩ := by
  split
  next hm =>
    rw [List.find?_eq_none]
    rintro x hx
    obtain ⟨⟨p', r', m'⟩, hs, rfl⟩ := List.mem_map.mp hx
    obtain ⟨_, _, rfl, hm'⟩ := mem_betweenSteps.mp hs
    simp only [Bool.and_eq_true, beq_iff_eq, not_and]
    intro hp' hr'
    rw [Progress.stateName_injective hp', Role.className_injective hr', hm] at hm'
    cases hm'
  next hm =>
    apply find?_eq_some_of_unique
    · exact List.mem_map.mpr
        ⟨(p, r, p.move r), mem_betweenSteps.mpr ⟨hp, hr, rfl, by simpa using hm⟩, rfl⟩
    · simp
    · intro x hx hxp
      obtain ⟨⟨p', r', m'⟩, hs, rfl⟩ := List.mem_map.mp hx
      obtain ⟨_, _, rfl, _⟩ := mem_betweenSteps.mp hs
      simp only [Bool.and_eq_true, beq_iff_eq] at hxp
      rw [Progress.stateName_injective hxp.1, Role.className_injective hxp.2]

theorem find?_betweenTransitions {p : Progress}
    (hp : p ∈ Progress.reachable (betweenRoles firsts seconds entries)) {r : Role}
    (hr : r ∈ betweenRoles firsts seconds entries) (hm : (p.move r).isIdle = false) :
    ((betweenSteps firsts seconds entries).map fun (_, _, m) => m.transition).find?
      (fun tr => tr.name == (p.move r).transitionName) = some (p.move r).transition := by
  apply find?_eq_some_of_unique
  · exact List.mem_map.mpr ⟨(p, r, p.move r), mem_betweenSteps.mpr ⟨hp, hr, rfl, hm⟩, rfl⟩
  · simp [Move.transition]
  · intro tr ht hn
    obtain ⟨⟨p', r', m'⟩, _, rfl⟩ := List.mem_map.mp ht
    have hn' : m'.transitionName = (p.move r).transitionName := by simpa [Move.transition] using hn
    rw [Move.transitionName_injective hn']

/-- The transition for a glyph is the move its roles bring about; an idle move has none. -/
theorem next?_between {p : Progress}
    (hp : p ∈ Progress.reachable (betweenRoles firsts seconds entries)) (g : Glyph) :
    (between firsts seconds entries).next? p.stateName g =
      if (p.move (betweenRole firsts seconds entries g)).isIdle then none
      else some (p.move (betweenRole firsts seconds entries g)).transition := by
  by_cases hg : g ∈ firsts ++ seconds ++ entries.map Prod.fst
  · have hr := betweenRole_mem_roles hg
    have hc : (between firsts seconds entries).classOf? g =
        some (betweenRole firsts seconds entries g).className :=
      classOf?_eq_some (holds_between.mpr ⟨hg, rfl⟩) (fun _ h => (holds_between.mp h).2)
    rw [between_eq, classOf?_addSubstitution] at hc
    rw [between_eq, next?_addSubstitution, next?_build, hc, Option.bind_some,
      find?_betweenRoutes hp hr]
    split
    next => rfl
    next hm => exact find?_betweenTransitions hp hr (by simpa using hm)
  · have hn : (between firsts seconds entries).next? p.stateName g = none :=
      next?_eq_none fun name h => hg (holds_between.mp h).1
    rw [hn, betweenRole_eq_none hg]
    simp [Progress.move, Move.isIdle]

/-- Every glyph makes the move of its roles. -/
theorem reaction_between {p : Progress}
    (hp : p ∈ Progress.reachable (betweenRoles firsts seconds entries)) (g : Glyph) :
    (between firsts seconds entries).reaction p.stateName g =
      ((p.move (betweenRole firsts seconds entries g)).next.stateName,
        (p.move (betweenRole firsts seconds entries g)).actions) := by
  rw [reaction, next?_between hp]
  cases hm : (p.move (betweenRole firsts seconds entries g)).isIdle with
  | true =>
    obtain ⟨hn, ha⟩ := Move.stateName_next_of_idle hm
    rw [hn, ha]
    rfl
  | false => rfl

theorem replace_between (g : Glyph) :
    (between firsts seconds entries).replace "Subst" g = (entries.lookup g).getD g := by
  rw [between_eq, replace_build]

/-- The roles of the glyph at an index of a run. -/
def roleAt (firsts seconds : List Glyph) (entries : List (Glyph × Glyph)) (run : List Glyph)
    (i : Nat) : Role :=
  (run[i]?.map (betweenRole firsts seconds entries)).getD ⟨false, false, false⟩

theorem roleAt_of_getElem? {run : List Glyph} {i : Nat} {g : Glyph} (hg : run[i]? = some g) :
    roleAt firsts seconds entries run i = betweenRole firsts seconds entries g := by
  simp [roleAt, hg]

/-- The move that the glyph at an index of a run makes. -/
def moveAt (firsts seconds : List Glyph) (entries : List (Glyph × Glyph)) (run : List Glyph)
    (i : Nat) : Move :=
  (Progress.after (roleAt firsts seconds entries run) i).move (roleAt firsts seconds entries run i)

theorem after_mem_reachable (run : List Glyph) (n : Nat) :
    Progress.after (roleAt firsts seconds entries run) n ∈
      Progress.reachable (betweenRoles firsts seconds entries) := by
  induction n with
  | zero => exact Progress.start_mem_reachable
  | succ n ih =>
    apply Progress.next_mem_reachable ih
    have hidle : ∀ p : Progress, (p.move ⟨false, false, false⟩).isIdle = true := by
      simp [Progress.move, Move.isIdle]
    cases hg : run[n]? with
    | none =>
      right
      simpa [roleAt, hg] using hidle _
    | some g =>
      rw [roleAt_of_getElem? hg]
      by_cases hm : g ∈ firsts ++ seconds ++ entries.map Prod.fst
      · exact Or.inl (betweenRole_mem_roles hm)
      · exact Or.inr (betweenRole_eq_none hm ▸ hidle _)

/-- A run gives a glyph its replacement where the next glyph confirms it. -/
theorem run_between (run : List Glyph) :
    (between firsts seconds entries).run run = run.mapIdx fun i g =>
      if (moveAt firsts seconds entries run (i + 1)).commit then (entries.lookup g).getD g
      else g := by
  rw [run_of_substituteMarked_next "Subst"
    (fun n => (Progress.after (roleAt firsts seconds entries run) n).stateName)
    (fun n => (moveAt firsts seconds entries run n).mark)
    (fun n => (moveAt firsts seconds entries run n).commit) rfl]
  · simp only [replace_between]
  · intro n g hg
    rw [reaction_between (after_mem_reachable run n), ← roleAt_of_getElem? hg]
    rfl
  · intro n hc
    have hm : (Progress.after (roleAt firsts seconds entries run) n).marked = true :=
      (Bool.and_eq_true_iff.mp hc).1
    cases n with
    | zero => cases hm
    | succ k => exact ⟨k, rfl, hm⟩
  · intro n hc
    have hs : (roleAt firsts seconds entries run n).second = true :=
      (Bool.and_eq_true_iff.mp hc).2
    by_contra hlt
    have hn : run[n]? = none := List.getElem?_eq_none (by omega)
    simp [roleAt, hn] at hs

theorem sawFirst_after {run : List Glyph} {i : Nat} :
    (Progress.after (roleAt firsts seconds entries run) i).sawFirst = true ↔
      ∃ g, 0 < i ∧ run[i - 1]? = some g ∧ g ∈ firsts := by
  cases i with
  | zero => simp [Progress.after]
  | succ k =>
    change (roleAt firsts seconds entries run k).first = true ↔ _
    cases hg : run[k]? with
    | none => simp [roleAt, hg]
    | some g => simp [roleAt, hg, betweenRole, Role.of]

/-- A target is confirmed if it stands between a first and a second context. -/
theorem commit_iff {run : List Glyph} {i : Nat} {g : Glyph} (hg : run[i]? = some g) :
    (moveAt firsts seconds entries run (i + 1)).commit = true ↔
      (∃ f, 0 < i ∧ run[i - 1]? = some f ∧ f ∈ firsts) ∧ g ∈ entries.map Prod.fst ∧
        ∃ s, run[i + 1]? = some s ∧ s ∈ seconds := by
  have htarget : (roleAt firsts seconds entries run i).target = true ↔
      g ∈ entries.map Prod.fst := by
    rw [roleAt_of_getElem? hg]
    exact List.contains_iff_mem
  have hsecond : (roleAt firsts seconds entries run (i + 1)).second = true ↔
      ∃ s, run[i + 1]? = some s ∧ s ∈ seconds := by
    cases hs : run[i + 1]? with
    | none => simp [roleAt, hs]
    | some s => simp [roleAt, hs, betweenRole, Role.of]
  have hfirst : (Progress.after (roleAt firsts seconds entries run) i).sawFirst = true ↔
      ∃ f, 0 < i ∧ run[i - 1]? = some f ∧ f ∈ firsts := sawFirst_after
  rw [← hfirst, ← htarget, ← hsecond, ← and_assoc, ← Bool.and_eq_true, ← Bool.and_eq_true]
  rfl

end Between

end StateTable

def IsTarget (rules : List GlyphRule) (g : Glyph) : Prop :=
  ∃ r ∈ rules, ∃ replacement, (g, replacement) ∈ r.pairs

theorem mem_keys_substitutions {rules : List GlyphRule} {g : Glyph} :
    g ∈ (substitutions rules).map Prod.fst ↔ IsTarget rules g := by
  simp only [substitutions, List.mem_map, List.mem_flatMap, IsTarget, Prod.exists]
  constructor
  · rintro ⟨target, replacement, ⟨r, hr, hp⟩, rfl⟩
    exact ⟨r, hr, replacement, hp⟩
  · rintro ⟨r, hr, replacement, hp⟩
    exact ⟨g, replacement, ⟨r, hr, hp⟩, rfl⟩

theorem returns_between (rules : List GlyphRule) :
    CompileM.Returns (RuleGroup.between rules).subtables
      [⟨"between", .contextual
        (StateTable.between ((rules.filterMap GlyphRule.sides?).flatMap Prod.fst)
          ((rules.filterMap GlyphRule.sides?).flatMap Prod.snd)
          (firstReplacements (substitutions rules)))⟩] :=
  .bind (.merge _ _) (.pure _)

end Metamorphosis
