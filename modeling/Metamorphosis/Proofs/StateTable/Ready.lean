import Metamorphosis.Proofs.StateTable.BetweenChain
import Metamorphosis.Proofs.StateTable.Closed

namespace Metamorphosis

namespace StateTable

/-- The entry of a glyph in a named substitution table. -/
def replacement? (t : StateTable) (table : String) (g : Glyph) : Option Glyph :=
  (t.substitutions.find? fun s => s.name == table).bind fun s => s.entries.lookup g

/-- An action is performed at an index of a run, on the head that the actions before it leave. -/
def Performs (t : StateTable) (run : List Glyph) (i : Nat) (h : Head) (a : Action) : Prop :=
  ∃ tr before after, t.transitionAt? (t.headAfter run i) i = some tr ∧
    tr.actions = before ++ a :: after ∧ h = before.foldl (t.perform i) (t.headAfter run i)

/-- A glyph is marked that has an entry in the table. -/
def Marked (t : StateTable) (table : String) (h : Head) : Prop :=
  ∃ m g, h.mark = some m ∧ h.glyphs[m]? = some g ∧ (t.replacement? table g).isSome

/-- The glyph that an action rewrites is there and has an entry in the table that the action
names. -/
def Ready (t : StateTable) (i : Nat) (h : Head) : Action → Prop
  | .substituteCurrent table => ∃ g, h.glyphs[i]? = some g ∧ (t.replacement? table g).isSome
  | .substituteMarked table => t.Marked table h
  | _ => True

/-- What a transition may do at a glyph in a state, given whether the glyph has an entry. -/
inductive Allowed (armed : String → Prop) (table state : String) (entry : Prop) :
    Transition → Prop
  | pass {name next : String} (hnext : armed next → armed state) :
    Allowed armed table state entry ⟨name, next, []⟩
  | mark {name next : String} (hentry : entry) :
    Allowed armed table state entry ⟨name, next, [.markGlyph]⟩
  | commit {name next : String} (hstate : armed state) (hnext : ¬armed next) :
    Allowed armed table state entry ⟨name, next, [.substituteMarked table]⟩
  | commitAndMark {name next : String} (hstate : armed state) (hentry : entry) :
    Allowed armed table state entry ⟨name, next, [.substituteMarked table, .markGlyph]⟩
  | rewrite {name next : String} (hentry : entry) (hnext : ¬armed next) :
    Allowed armed table state entry ⟨name, next, [.substituteCurrent table]⟩

/-- A table all of whose transitions keep to that. -/
structure Guarded (t : StateTable) (armed : String → Prop) (table : String) : Prop where
  start_disarmed : ¬armed start
  allowed : ∀ {state : String} {g : Glyph} {tr : Transition}, t.next? state g = some tr →
    Allowed armed table state (t.replacement? table g).isSome tr

variable {t : StateTable} {armed : String → Prop} {table : String} {run : List Glyph}

/-- The transition taken at an index is the one for the glyph that stands there. -/
theorem transitionAt?_eq_some {h : Head} {i : Nat} {tr : Transition}
    (ht : t.transitionAt? h i = some tr) :
    ∃ g, h.glyphs[i]? = some g ∧ t.next? h.state g = some tr :=
  Option.bind_eq_some_iff.mp ht

/-- Rewriting the marked glyph leaves the glyph at an index ahead of the mark. -/
theorem getElem?_perform_substituteMarked {h : Head} {n : Nat} (hu : Untouched run n h)
    (table : String) : (t.perform n h (.substituteMarked table)).glyphs[n]? = h.glyphs[n]? := by
  cases hm : h.mark with
  | none => simp [perform, hm]
  | some m =>
    have hlt := hu.mark_lt m hm
    simp [perform, hm, show m ≠ n by omega]

/-- A transition leads to an armed state only with a glyph marked that has an entry. -/
theorem Guarded.marked_step (hg : t.Guarded armed table) {h : Head} {n : Nat}
    (hu : Untouched run n h) (hm : armed h.state → t.Marked table h)
    (ha : armed (t.step h n).state) : t.Marked table (t.step h n) := by
  unfold step at ha ⊢
  cases ht : t.transitionAt? h n with
  | none =>
    rw [ht] at ha
    exact absurd ha hg.start_disarmed
  | some tr =>
    obtain ⟨g, hglyph, hnext⟩ := transitionAt?_eq_some ht
    have hallowed := hg.allowed hnext
    rw [ht] at ha
    cases hallowed with
    | pass harmed => exact hm (harmed ha)
    | mark hentry => exact ⟨n, g, rfl, hglyph, hentry⟩
    | commit _ hdisarmed => exact absurd ha hdisarmed
    | commitAndMark _ hentry =>
      exact ⟨n, g, rfl, (getElem?_perform_substituteMarked hu table).trans hglyph, hentry⟩
    | rewrite _ hdisarmed => exact absurd ha hdisarmed

theorem Guarded.marked (hg : t.Guarded armed table) (run : List Glyph) (n : Nat)
    (ha : armed (t.headAfter run n).state) : t.Marked table (t.headAfter run n) := by
  induction n with
  | zero => exact absurd ha hg.start_disarmed
  | succ n ih =>
    rw [headAfter_succ] at ha ⊢
    exact hg.marked_step (headAfter_untouched t run n) ih ha

/-- In a guarded table every action finds what it needs. -/
theorem Guarded.ready (hg : t.Guarded armed table) {i : Nat} {h : Head} {a : Action}
    (hp : t.Performs run i h a) : t.Ready i h a := by
  obtain ⟨tr, before, after, ht, hactions, rfl⟩ := hp
  obtain ⟨g, hglyph, hnext⟩ := transitionAt?_eq_some ht
  have hallowed := hg.allowed hnext
  cases hallowed with
  | pass => simp at hactions
  | mark =>
    obtain ⟨rfl, rfl, rfl⟩ : before = [] ∧ a = Action.markGlyph ∧ after = [] := by
      simpa [List.singleton_eq_append_iff] using hactions
    exact trivial
  | commit hstate =>
    obtain ⟨rfl, rfl, rfl⟩ : before = [] ∧ a = Action.substituteMarked table ∧ after = [] := by
      simpa [List.singleton_eq_append_iff] using hactions
    exact hg.marked run i hstate
  | commitAndMark hstate =>
    cases before with
    | nil =>
      obtain ⟨rfl, _⟩ := List.cons.inj hactions
      exact hg.marked run i hstate
    | cons first rest =>
      obtain ⟨rfl, rfl, rfl⟩ : rest = [] ∧ a = Action.markGlyph ∧ after = [] := by
        simpa [List.singleton_eq_append_iff] using (List.cons.inj hactions).2
      exact trivial
  | rewrite hentry =>
    obtain ⟨rfl, rfl, rfl⟩ : before = [] ∧ a = Action.substituteCurrent table ∧ after = [] := by
      simpa [List.singleton_eq_append_iff] using hactions
    exact ⟨g, hglyph, hentry⟩

section Build

variable {classes : List (String × List Glyph)} {states : List String} {routes : List Route}
  {transitions : List Transition} {entries : List (Glyph × Glyph)}

/-- The transition of a built table comes from a route for a class of the glyph. -/
theorem route_of_next?_build {state : String} {g : Glyph} {tr : Transition}
    (h : (build classes states routes transitions).next? state g = some tr) :
    ∃ r ∈ routes, r.state = state ∧ (∃ members, (r.className, members) ∈ classes ∧ g ∈ members) ∧
      tr ∈ transitions ∧ tr.name = r.transition := by
  rw [next?_build] at h
  obtain ⟨name, hclass, h⟩ := Option.bind_eq_some_iff.mp h
  obtain ⟨r, hr, htr⟩ := Option.bind_eq_some_iff.mp h
  have hroute : r.state = state ∧ r.className = name := by simpa using List.find?_some hr
  obtain ⟨hs, hc⟩ := hroute
  have hn : tr.name = r.transition := by simpa using List.find?_some htr
  rw [← hc] at hclass
  exact ⟨r, List.mem_of_find?_eq_some hr, hs, holds_build.mp (holds_of_classOf? hclass),
    List.mem_of_find?_eq_some htr, hn⟩

theorem replacement?_build (g : Glyph) :
    ((build classes states routes transitions).addSubstitution table entries).replacement? table g =
      entries.lookup g := by
  simp [replacement?, addSubstitution, build_substitutions]

/-- The keys of a table's substitutions are the glyphs with an entry. -/
theorem isSome_replacement?_build {g : Glyph} :
    (((build classes states routes transitions).addSubstitution table entries).replacement?
      table g).isSome = true ↔ g ∈ entries.map Prod.fst := by
  rw [replacement?_build, isSome_lookup]

/-- A built table is guarded if each route with its class and transition is as it may be. -/
theorem guarded_build (hstart : ¬armed start)
    (hroute : ∀ r ∈ routes, ∀ members, (r.className, members) ∈ classes → ∀ g ∈ members,
      ∀ tr ∈ transitions, tr.name = r.transition →
        Allowed armed table r.state (g ∈ entries.map Prod.fst) tr) :
    ((build classes states routes transitions).addSubstitution table entries).Guarded
      armed table := by
  refine ⟨hstart, ?_⟩
  intro state g tr h
  rw [next?_addSubstitution] at h
  obtain ⟨r, hr, rfl, ⟨members, hm, hg⟩, htr, hn⟩ := route_of_next?_build h
  rw [isSome_replacement?_build]
  exact hroute r hr members hm g hg tr htr hn

end Build

section Adjacent

variable {glyph : Glyph} {entries : List (Glyph × Glyph)}

/-- A glyph of a class that is not only context is a target. -/
theorem mem_targets_of_adjacentClasses {targets members : List Glyph} {name : String} {g : Glyph}
    (hm : (name, members) ∈ adjacentClasses glyph targets) (hg : g ∈ members)
    (hn : name ≠ "Context") : g ∈ targets := by
  simp only [adjacentClasses, List.mem_cons, Prod.mk.injEq, List.not_mem_nil, or_false] at hm
  rcases hm with ⟨rfl, rfl⟩ | ⟨rfl, rfl⟩ | ⟨rfl, rfl⟩
  · exact absurd rfl hn
  · exact List.contains_iff_mem.mp (mem_targetOnly.mp hg).2
  · exact List.contains_iff_mem.mp (mem_both.mp hg).2

theorem adjacent_after_guarded :
    (adjacent .after glyph entries).Guarded (fun _ => False) "Subst" := by
  rw [adjacent_after_eq]
  refine guarded_build not_false ?_
  intro r hr members hm g hg tr htr hn
  have htarget := mem_targets_of_adjacentClasses hm hg
  have hall : ∀ b, ∀ tr ∈ afterTransitions b, tr ∈ afterTransitions true := by decide
  have htr' := hall _ tr htr
  have hkinds : ∀ r ∈ afterRoutes, ∀ tr ∈ afterTransitions true, tr.name = r.transition →
      tr.actions = [] ∨
        (tr.actions = [.substituteCurrent "Subst"] ∧ r.className ≠ "Context") := by decide
  obtain ⟨name, next, actions⟩ := tr
  rcases hkinds r hr _ htr' hn with rfl | ⟨rfl, hclass⟩
  · exact .pass id
  · exact .rewrite (htarget hclass) not_false

theorem adjacent_before_guarded :
    (adjacent .before glyph entries).Guarded (· = "SawTarget") "Subst" := by
  rw [adjacent_before_eq]
  refine guarded_build (by decide) ?_
  intro r hr members hm g hg tr htr hn
  have htarget := mem_targets_of_adjacentClasses hm hg
  have hall : ∀ b, ∀ tr ∈ beforeTransitions b, tr ∈ beforeTransitions true := by decide
  have htr' := hall _ tr htr
  have hkinds : ∀ r ∈ beforeRoutes, ∀ tr ∈ beforeTransitions true, tr.name = r.transition →
      (tr.actions = [.markGlyph] ∧ r.className ≠ "Context") ∨
      (tr.actions = [.substituteMarked "Subst"] ∧ r.state = "SawTarget" ∧
        tr.next ≠ "SawTarget") ∨
      (tr.actions = [.substituteMarked "Subst", .markGlyph] ∧ r.state = "SawTarget" ∧
        r.className ≠ "Context") := by decide
  obtain ⟨name, next, actions⟩ := tr
  rcases hkinds r hr _ htr' hn with ⟨rfl, hclass⟩ | ⟨rfl, hstate, hnext⟩ | ⟨rfl, hstate, hclass⟩
  · exact .mark (htarget hclass)
  · exact .commit hstate hnext
  · exact .commitAndMark hstate (htarget hclass)

end Adjacent

section Chain

variable {length : Nat} {positions : List (List Glyph)} {targets : List Glyph}

theorem mem_targets_of_chainClasses {members : List Glyph}
    (hm : ("Target", members) ∈ chainClasses positions targets) : members = targets := by
  rcases mem_chainClasses.mp hm with ⟨j, _, hn⟩ | ⟨_, he⟩
  · exact absurd hn.symm (contextClass_ne_target (j + 1))
  · exact he

theorem chain_after_guarded (hl : 0 < length) (patterns : List (List Glyph))
    (entries : List (Glyph × Glyph)) :
    (chain .after length patterns entries).Guarded (fun _ => False) "Subst" := by
  rw [chain_after_eq]
  refine guarded_build not_false ?_
  intro r hr members hm g hg tr htr hn
  rcases mem_chainAfterTransitions.mp htr with ⟨j, _, rfl⟩ | rfl
  · exact .pass id
  · rcases (mem_chainAfterRoutes hl).mp hr with ⟨k, j, _, _, _, rfl⟩ | rfl
    · exact absurd hn.symm (sawContext_ne_doSubstitution (j + 1))
    · rw [mem_targets_of_chainClasses hm] at hg
      exact .rewrite hg not_false

/-- The states that wait for the context of a target. -/
def IsWaiting (state : String) : Prop := ∃ k, state = awaiting k

theorem chain_before_guarded (patterns : List (List Glyph)) (entries : List (Glyph × Glyph)) :
    (chain .before length patterns entries).Guarded IsWaiting "Subst" := by
  have hstart : ¬IsWaiting start := by
    rintro ⟨k, hk⟩
    exact awaiting_ne_start k hk.symm
  rw [chain_before_eq]
  refine guarded_build hstart ?_
  intro r hr members hm g hg tr htr hn
  have hcontext : IsWaiting r.state → r.transition ≠ "MarkTarget" →
      Allowed IsWaiting "Subst" r.state (g ∈ entries.map Prod.fst) tr := by
    intro hwaiting hne
    rcases mem_chainBeforeTransitions.mp htr with rfl | ⟨j, _, rfl⟩ | rfl
    · exact absurd hn.symm hne
    · exact .pass fun _ => hwaiting
    · exact .commit hwaiting hstart
  rcases mem_chainBeforeRoutes.mp hr with ⟨o, _, rfl⟩ | ⟨k, _, rfl⟩ | ⟨k, _, rfl⟩
  · rw [mem_targets_of_chainClasses hm] at hg
    rcases mem_chainBeforeTransitions.mp htr with rfl | ⟨j, _, rfl⟩ | rfl
    · exact .mark hg
    · exact absurd hn (sawContext_ne_markTarget (j + 1))
    · simp at hn
  · apply hcontext ⟨k, rfl⟩
    unfold beforeStep
    split
    next => exact sawContext_ne_markTarget (k + 1)
    next => simp
  · exact hcontext ⟨k + 1, rfl⟩ (sawContext_ne_markTarget (k + 1))

end Chain

section Between

/-- The states that remember a marked target. -/
def IsMarking (state : String) : Prop := ∃ p : Progress, p.marked = true ∧ state = p.stateName

theorem Allowed.of_move {p : Progress} {r : Role} {entry : Prop} (hentry : r.target = true → entry) :
    Allowed IsMarking "Subst" p.stateName entry (p.move r).transition := by
  have hnext : IsMarking (p.move r).next.stateName → (p.move r).mark = true := by
    rintro ⟨q, hq, he⟩
    rw [← Progress.stateName_injective he] at hq
    exact hq
  unfold Move.transition Move.actions
  cases hc : (p.move r).commit with
  | false =>
    cases hm : (p.move r).mark with
    | false => exact .pass fun h => absurd (hnext h) (by simp [hm])
    | true => exact .mark (hentry (Bool.and_eq_true_iff.mp hm).2)
  | true =>
    have hstate : IsMarking p.stateName := ⟨p, (Bool.and_eq_true_iff.mp hc).1, rfl⟩
    cases hm : (p.move r).mark with
    | false => exact .commit hstate fun h => absurd (hnext h) (by simp [hm])
    | true => exact .commitAndMark hstate (hentry (Bool.and_eq_true_iff.mp hm).2)

theorem between_guarded (firsts seconds : List Glyph) (entries : List (Glyph × Glyph)) :
    (between firsts seconds entries).Guarded IsMarking "Subst" := by
  have hstart : ¬IsMarking start := by
    rintro ⟨p, hp, he⟩
    have hidle : (⟨false, false⟩ : Progress) = p := Progress.stateName_injective he
    rw [← hidle] at hp
    cases hp
  rw [between_eq]
  refine guarded_build hstart ?_
  intro route hr members hm g hg tr htr hn
  obtain ⟨⟨p, r, m⟩, hstep, rfl⟩ := List.mem_map.mp hr
  obtain ⟨⟨p', r', m'⟩, _, rfl⟩ := List.mem_map.mp htr
  obtain ⟨r'', hr'', he⟩ := List.mem_map.mp hm
  obtain ⟨_, _, rfl, _⟩ := mem_betweenSteps.mp hstep
  have hname : m'.transitionName = (p.move r).transitionName := hn
  have hclass : r'' = r := Role.className_injective (Prod.mk.inj he).1
  rw [Move.transitionName_injective hname]
  rw [← (Prod.mk.inj he).2, hclass] at hg
  have hrole := (mem_betweenMembers.mp hg).2
  apply Allowed.of_move
  intro ht
  rw [← hrole] at ht
  exact List.contains_iff_mem.mp ht

end Between

section BetweenChain

variable {n m : Nat} {sides : List (List Glyph × List Glyph)} {targets : List Glyph}

/-- The states after the target. -/
def IsBeyond (state : String) : Prop := state = "SawTarget" ∨ ∃ j, state = sawSecond j

theorem isBeyond_betweenState {k : Nat} (hk : n < k) : IsBeyond (betweenState n k) := by
  rw [betweenState, if_neg (by omega), if_neg (by omega)]
  split
  next => exact Or.inl rfl
  next => exact Or.inr ⟨_, rfl⟩

theorem not_isBeyond_sawFirst (k : Nat) : ¬IsBeyond (sawFirst k) := by
  rintro (he | ⟨j, he⟩)
  · have hl := congrArg String.toList he
    simp [sawFirst, numbered] at hl
  · have hl := congrArg String.toList he
    simp [sawFirst, sawSecond, numbered] at hl

theorem not_isBeyond_start : ¬IsBeyond start := by
  rintro (he | ⟨j, he⟩)
  · simp [start] at he
  · have hl := congrArg String.toList he
    simp [sawSecond, numbered, start] at hl

theorem mem_targets_of_betweenPositions {members : List Glyph} {g : Glyph}
    (hm : ("Target", members) ∈
      (betweenPositions n m sides targets).map fun p => (p.className, p.glyphs))
    (hg : g ∈ members) : g ∈ targets := by
  obtain ⟨p, hp, he⟩ := List.mem_map.mp hm
  obtain ⟨hname, rfl⟩ := Prod.mk.inj he
  simp only [betweenPositions, List.mem_append, List.mem_map, List.mem_singleton] at hp
  rcases hp with (⟨x, _, rfl⟩ | rfl) | ⟨x, _, rfl⟩
  · exact absurd hname (firstClass_ne_target _)
  · exact mem_glyphSet.mp hg
  · exact absurd hname (secondClass_ne_target _)

theorem betweenChain_guarded (hn : 0 < n) (hm : 0 < m) (sides : List (List Glyph × List Glyph))
    (entries : List (Glyph × Glyph)) :
    (betweenChain n m (betweenPositions n m sides (entries.map Prod.fst)) entries).Guarded
      IsBeyond "Subst" := by
  unfold betweenChain
  refine guarded_build not_isBeyond_start ?_
  intro r hr members hmem g hg tr htr hname
  obtain ⟨i, j, hi, hj, rfl⟩ := (mem_betweenChainRoutes hn hm).mp hr
  obtain ⟨k, hk, rfl⟩ := (mem_betweenChainTransitions hm).mp htr
  obtain rfl : k = j := betweenStep_injective (by omega) (by omega) hname
  by_cases hlt : k < n
  · rw [betweenTransition_of_lt hlt]
    exact .pass fun hbeyond => absurd hbeyond (not_isBeyond_sawFirst (k + 1))
  · by_cases htarget : k = n
    · have hclass : betweenClass n k = "Target" := by
        rw [htarget, betweenClass, if_neg (Nat.lt_irrefl n), if_pos rfl]
      rw [hclass] at hmem
      rw [htarget, betweenTransition_target hm]
      exact .mark (mem_targets_of_betweenPositions hmem hg)
    · -- after the target a match only goes on
      obtain rfl : i = k := by omega
      have hbeyond : IsBeyond (betweenState n i) := isBeyond_betweenState (by omega)
      by_cases hlast : i = n + m
      · obtain rfl := hlast
        rw [betweenTransition_last hm]
        exact .commit hbeyond not_isBeyond_start
      · rw [betweenTransition_of_gt (by omega) (by omega)]
        exact .pass fun _ => hbeyond

end BetweenChain

section Whole

variable {length target : Nat} {patterns : List (List Glyph)} {entries : List (Glyph × Glyph)}

/-- The states of a match that has passed its target. -/
def IsPast (target : Nat) (state : String) : Prop := ∃ i, target < i ∧ state = matchState i

theorem not_isPast_start : ¬IsPast target start := by
  rintro ⟨i, hi, he⟩
  have h0 : 0 = i := matchState_injective he
  omega

theorem mem_positionClasses {members : List Glyph} {j : Nat}
    (hm : (positionClass (j + 1), members) ∈
      (positionGlyphs patterns length).zipIdx.map fun (glyphs, i) => (positionClass (i + 1), glyphs))
    {g : Glyph} (hg : g ∈ members) : ∃ pattern ∈ patterns, pattern[j]? = some g := by
  obtain ⟨i, hat, hname⟩ := (mem_numberedClasses positionClass).mp hm
  obtain rfl : j = i := Nat.succ.inj (numbered_injective hname)
  rw [(getElem?_positionGlyphs.mp hat).2] at hg
  exact List.mem_filterMap.mp hg

theorem whole_guarded (ht : target < length)
    (hkeys : ∀ pattern ∈ patterns, ∀ g, pattern[target]? = some g → g ∈ entries.map Prod.fst) :
    (whole length target patterns entries).Guarded (IsPast target) "Subst" := by
  unfold whole
  refine guarded_build not_isPast_start ?_
  intro r hr members hm g hg tr htr hn
  obtain ⟨i, j, hi, hj, rfl⟩ := (mem_wholeRoutes (by omega)).mp hr
  have hentry : j = target → g ∈ entries.map Prod.fst := by
    rintro rfl
    obtain ⟨pattern, hpattern, hat⟩ := mem_positionClasses hm hg
    exact hkeys pattern hpattern g hat
  have hpast : target < j → IsPast target (matchState i) := by
    intro hlt
    exact ⟨i, by omega, rfl⟩
  rcases mem_wholeTransitions.mp htr with ⟨k, _, rfl⟩ | rfl
  · obtain rfl : k = j := wholeStep_injective hn
    split
    next he => exact .mark (hentry he)
    next hne =>
      refine .pass ?_
      rintro ⟨i', hi', he⟩
      have hnext : k + 1 = i' := matchState_injective he
      exact hpast (by omega)
  · have hstep : wholeStep length target (length - 1) = wholeStep length target j :=
      (wholeStep_last (by omega)).trans hn
    have hlast := wholeStep_injective hstep
    split
    next he => exact .rewrite (hentry (by omega)) not_isPast_start
    next hne => exact .commit (hpast (by omega)) not_isPast_start

theorem marking_guarded {pattern : List Glyph} {marked : List Nat}
    (hkeys : ∀ i ∈ marked, ∀ g, pattern[i]? = some g → g ∈ entries.map Prod.fst) :
    (marking pattern marked entries).Guarded (fun _ => False) "MarkTemps" := by
  unfold marking
  refine guarded_build not_false ?_
  intro r hr members hm g hg tr htr hn
  obtain ⟨x, hx, he⟩ := List.mem_map.mp hm
  obtain ⟨hname, rfl⟩ := Prod.mk.inj he
  obtain rfl := List.mem_singleton.mp hg
  obtain ⟨i, j, hi, hj, rfl⟩ := (mem_wholeRoutes (List.length_pos_of_mem hx)).mp hr
  obtain ⟨k, hk, rfl⟩ := List.mem_map.mp htr
  obtain rfl : k = j := markingStep_injective hn
  have hkl : k < pattern.length := List.mem_range.mp hk
  rw [List.getElem?_eq_getElem hkl, Option.map_some, Option.getD_some] at hname
  have hat : pattern[k]? = some g := by
    rw [List.getElem?_eq_getElem hkl, placeClass_injective hx hname]
  cases hmarked : marked.contains k with
  | true => exact .rewrite (hkeys k (List.contains_iff_mem.mp hmarked) g hat) not_false
  | false => exact .pass id

end Whole

end StateTable

end Metamorphosis
