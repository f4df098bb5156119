import Metamorphosis.Document
import Metamorphosis.Proofs.Ordered
import Metamorphosis.Proofs.StateTable.Build

namespace Metamorphosis

theorem lookup_map_glyph (entries : List (Glyph × Glyph)) (g : Glyph) :
    (entries.map fun (g, r) => (g, Replacement.glyph r)).lookup g =
      (entries.lookup g).map Replacement.glyph := by
  induction entries with
  | nil => rfl
  | cons e rest ih =>
    rw [List.map_cons, List.lookup_cons, List.lookup_cons, ih]
    cases g == e.1 <;> rfl

theorem replaceGlyph_glyphs (entries : List (Glyph × Glyph)) (g : Glyph) :
    replaceGlyph (entries.map fun (g, r) => (g, .glyph r)) g = [(entries.lookup g).getD g] := by
  rw [replaceGlyph, lookup_map_glyph]
  cases entries.lookup g <;> rfl

/-- A subtable without deletions gives every glyph its replacement. -/
theorem flatMap_replaceGlyph_glyphs (entries : List (Glyph × Glyph)) (run : List Glyph) :
    run.flatMap (replaceGlyph (entries.map fun (g, r) => (g, .glyph r))) =
      run.map fun g => (entries.lookup g).getD g := by
  rw [funext (replaceGlyph_glyphs entries), List.map_eq_flatMap]

/-- A glyph after the subtable is a replacement, or was there before and is no key. -/
theorem mem_flatMap_replaceGlyph {entries : List (Glyph × Replacement)} {run : List Glyph}
    {g : Glyph} (h : g ∈ run.flatMap (replaceGlyph entries)) :
    (∃ key, (key, .glyph g) ∈ entries) ∨ (g ∈ run ∧ g ∉ entries.map Prod.fst) := by
  obtain ⟨x, hx, hg⟩ := List.mem_flatMap.mp h
  unfold replaceGlyph at hg
  split at hg
  next name hl =>
    rw [List.mem_singleton.mp hg]
    exact Or.inl ⟨x, mem_of_lookup hl⟩
  next => cases hg
  next hl =>
    rw [List.mem_singleton.mp hg]
    refine Or.inr ⟨hx, fun hk => ?_⟩
    obtain ⟨v, hv⟩ := exists_lookup_of_mem hk
    rw [hl] at hv
    cases hv

/-- A subtable without keys in the run leaves it as it is. -/
theorem flatMap_replaceGlyph_of_not_mem {entries : List (Glyph × Replacement)} {run : List Glyph}
    (h : ∀ g ∈ run, g ∉ entries.map Prod.fst) : run.flatMap (replaceGlyph entries) = run := by
  induction run with
  | nil => rfl
  | cons g rest ih =>
    have hg : replaceGlyph entries g = [g] := by
      rw [replaceGlyph, lookup_eq_none_of_not_mem (h g List.mem_cons_self)]
    rw [List.flatMap_cons, hg, ih fun g' hg' => h g' (List.mem_cons_of_mem _ hg')]
    rfl

namespace StateTable

variable {t : StateTable} {glyphs : List Glyph}

@[simp] theorem classOf?_addSubstitution (t : StateTable) (name : String)
    (entries : List (Glyph × Glyph)) (g : Glyph) :
    (t.addSubstitution name entries).classOf? g = t.classOf? g := rfl

@[simp] theorem next?_addSubstitution (t : StateTable) (name : String)
    (entries : List (Glyph × Glyph)) (state : String) (g : Glyph) :
    (t.addSubstitution name entries).next? state g = t.next? state g := rfl

/-- The only substitution table of a built table is the one added to it. -/
theorem replace_build {classes : List (String × List Glyph)} {states : List String}
    {routes : List Route} {transitions : List Transition} (name : String)
    (entries : List (Glyph × Glyph)) (g : Glyph) :
    ((build classes states routes transitions).addSubstitution name entries).replace name g =
      (entries.lookup g).getD g := by
  simp [replace, addSubstitution, build_substitutions]

theorem entries_build {classes : List (String × List Glyph)} {states : List String}
    {routes : List Route} {transitions : List Transition} {name : String}
    {entries : List (Glyph × Glyph)} :
    ∀ sub ∈ ((build classes states routes transitions).addSubstitution name entries).substitutions,
      sub.entries = entries := by
  simp [addSubstitution, build_substitutions]

theorem headAfter_succ (t : StateTable) (glyphs : List Glyph) (n : Nat) :
    t.headAfter glyphs (n + 1) = t.step (t.headAfter glyphs n) n := by
  simp [headAfter, List.range_succ]

/-- What holds at the start and is kept by reading a glyph holds all along a run. -/
theorem headAfter_induction {P : Nat → Head → Prop} (base : P 0 ⟨start, none, glyphs⟩)
    (read : ∀ n h, n < glyphs.length → P n h → P (n + 1) (t.step h n)) :
    ∀ n, n ≤ glyphs.length → P n (t.headAfter glyphs n) := by
  intro n
  induction n with
  | zero => exact fun _ => base
  | succ n ih =>
    intro hn
    rw [headAfter_succ]
    exact read n _ (by omega) (ih (by omega))

/-- The head has not touched the glyphs from an index on. -/
structure Untouched (glyphs : List Glyph) (n : Nat) (h : Head) : Prop where
  mark_lt : ∀ m, h.mark = some m → m < n
  ahead : ∀ j, n ≤ j → h.glyphs[j]? = glyphs[j]?
  length_eq : h.glyphs.length = glyphs.length

theorem perform_untouched {i : Nat} {h : Head} (hu : Untouched glyphs (i + 1) h) (a : Action) :
    Untouched glyphs (i + 1) (t.perform i h a) := by
  cases a with
  | markGlyph =>
    refine ⟨?_, hu.ahead, hu.length_eq⟩
    intro m hm
    have he : i = m := Option.some.inj hm
    omega
  | substituteCurrent table =>
    refine ⟨hu.mark_lt, ?_, by simpa [perform] using hu.length_eq⟩
    intro j hj
    rw [← hu.ahead j hj]
    simp [perform, show i ≠ j by omega]
  | substituteMarked table =>
    cases hm : h.mark with
    | none => simpa [perform, hm] using hu
    | some m =>
      have hlt := hu.mark_lt m hm
      refine ⟨by simpa [perform, hm] using hlt, ?_, by simpa [perform, hm] using hu.length_eq⟩
      intro j hj
      rw [← hu.ahead j hj]
      simp [perform, hm, show m ≠ j by omega]
  | markFirst => exact hu
  | markLast => exact hu
  | rearrange verb => exact hu

theorem foldl_perform_untouched {i : Nat} {h : Head} (hu : Untouched glyphs (i + 1) h)
    (actions : List Action) : Untouched glyphs (i + 1) (actions.foldl (t.perform i) h) := by
  induction actions generalizing h with
  | nil => exact hu
  | cons a rest ih => exact ih (perform_untouched hu a)

theorem step_untouched {n : Nat} {h : Head} (hu : Untouched glyphs n h) :
    Untouched glyphs (n + 1) (t.step h n) := by
  have hw : Untouched glyphs (n + 1) h :=
    ⟨fun m hm => by have := hu.mark_lt m hm; omega, fun j hj => hu.ahead j (by omega), hu.length_eq⟩
  unfold step
  split
  next tr _ =>
    have hf := foldl_perform_untouched (t := t) hw tr.actions
    exact ⟨hf.mark_lt, hf.ahead, hf.length_eq⟩
  next => exact ⟨hw.mark_lt, hw.ahead, hw.length_eq⟩

theorem headAfter_untouched (t : StateTable) (glyphs : List Glyph) (n : Nat) :
    Untouched glyphs n (t.headAfter glyphs n) := by
  induction n with
  | zero => exact ⟨by simp [headAfter], fun _ _ => rfl, rfl⟩
  | succ n ih =>
    rw [headAfter_succ]
    exact step_untouched ih

@[simp] theorem length_run (t : StateTable) (glyphs : List Glyph) :
    (t.run glyphs).length = glyphs.length :=
  (headAfter_untouched t glyphs glyphs.length).length_eq

/-- The state a glyph leads to, and what is done at it. -/
def reaction (t : StateTable) (state : String) (g : Glyph) : String × List Action :=
  match t.next? state g with
  | some tr => (tr.next, tr.actions)
  | none => (start, [])

/-- The transition taken at an index is the one for the glyph that stood there at first. -/
theorem transitionAt?_headAfter (t : StateTable) (glyphs : List Glyph) (n : Nat) :
    t.transitionAt? (t.headAfter glyphs n) n =
      glyphs[n]?.bind (t.next? (t.headAfter glyphs n).state) := by
  rw [transitionAt?, (headAfter_untouched t glyphs n).ahead n (Nat.le_refl n)]
  rfl

/-- What reading a glyph does, in terms of the glyph that stood there at first. -/
theorem headAfter_read {n : Nat} {g : Glyph} (hg : glyphs[n]? = some g) :
    t.headAfter glyphs (n + 1) =
      { (t.reaction (t.headAfter glyphs n).state g).2.foldl (t.perform n) (t.headAfter glyphs n) with
        state := (t.reaction (t.headAfter glyphs n).state g).1 } := by
  rw [headAfter_succ, step, transitionAt?_headAfter, hg, Option.bind_some, reaction]
  cases t.next? (t.headAfter glyphs n).state g <;> rfl

/-- The state after `n` glyphs, if it is known how each of them changes it. -/
theorem headAfter_state (state : Nat → String) (hstart : state 0 = start)
    (hread : ∀ n g, glyphs[n]? = some g → (t.reaction (state n) g).1 = state (n + 1)) {n : Nat}
    (hn : n ≤ glyphs.length) : (t.headAfter glyphs n).state = state n := by
  induction n with
  | zero => exact hstart.symm
  | succ n ih =>
    have hg : glyphs[n]? = some glyphs[n] := List.getElem?_eq_getElem (by omega)
    rw [headAfter_read hg, ih (by omega), hread n _ hg]

/-- Two ways to rewrite a run by index are the same if they are so at its glyphs. -/
theorem mapIdx_congr {f f' : Nat → Glyph → Glyph}
    (h : ∀ i g, glyphs[i]? = some g → f i g = f' i g) : glyphs.mapIdx f = glyphs.mapIdx f' := by
  rw [List.mapIdx_eq_mapIdx_iff]
  intro i hi
  exact h i _ (List.getElem?_eq_getElem hi)

/-- What the head has rewritten after `n` glyphs, if it rewrites some as it reads them. -/
theorem headAfter_of_substituteCurrent {table : String} {state : Nat → String} {now : Nat → Bool}
    (hstart : state 0 = start)
    (hread : ∀ n g, glyphs[n]? = some g → t.reaction (state n) g =
      (state (n + 1), if now n then [.substituteCurrent table] else [])) {n : Nat}
    (hn : n ≤ glyphs.length) :
    (t.headAfter glyphs n).state = state n ∧
      ∀ j, (t.headAfter glyphs n).glyphs[j]? = glyphs[j]?.map fun g =>
        if j < n ∧ now j = true then t.replace table g else g := by
  induction n with
  | zero => exact ⟨hstart.symm, by simp [headAfter]⟩
  | succ n ih =>
    obtain ⟨hs, hj⟩ := ih (by omega)
    have hg : glyphs[n]? = some glyphs[n] := List.getElem?_eq_getElem (by omega)
    rw [headAfter_read hg, hs, hread n _ hg]
    refine ⟨rfl, fun j => ?_⟩
    have hlt : j < n + 1 ↔ j < n ∨ j = n := by omega
    cases hnow : now n with
    | false =>
      rw [if_neg (by simp), List.foldl_nil, hj]
      by_cases he : j = n
      · simp [he, hnow]
      · simp [hlt, he]
    | true =>
      rw [if_pos rfl, List.foldl_cons, List.foldl_nil, perform, List.getElem?_modify, hj]
      by_cases he : j = n
      · simp [he, hnow]
      · simp [hlt, he, Ne.symm he]

/-- A table that rewrites some of the glyphs it reads, each as it reads it. -/
theorem run_of_substituteCurrent (table : String) (state : Nat → String) (now : Nat → Bool)
    (hstart : state 0 = start)
    (hread : ∀ n g, glyphs[n]? = some g → t.reaction (state n) g =
      (state (n + 1), if now n then [.substituteCurrent table] else [])) :
    t.run glyphs = glyphs.mapIdx fun i g => if now i then t.replace table g else g := by
  apply List.ext_getElem?
  intro i
  rw [run, (headAfter_of_substituteCurrent hstart hread (Nat.le_refl _)).2, List.getElem?_mapIdx]
  cases hg : glyphs[i]? with
  | none => rfl
  | some g =>
    have hi := (List.getElem?_eq_some_iff.mp hg).1
    simp [hi]

/-- The last index before `n` that is marked. -/
def lastMark (marks : Nat → Bool) : Nat → Option Nat
  | 0 => none
  | n + 1 => if marks n then some n else lastMark marks n

theorem lastMark_eq_some {marks : Nat → Bool} {n m : Nat} :
    lastMark marks n = some m ↔
      m < n ∧ marks m = true ∧ ∀ j, m < j → j < n → marks j = false := by
  induction n with
  | zero => simp [lastMark]
  | succ n ih =>
    rw [lastMark]
    cases hn : marks n with
    | true =>
      rw [if_pos rfl, Option.some.injEq]
      constructor
      · rintro rfl
        exact ⟨by omega, hn, fun j hj hj' => by omega⟩
      · rintro ⟨hm, _, hafter⟩
        by_cases he : m = n
        · exact he.symm
        · have hfalse := hafter n (by omega) (by omega)
          rw [hn] at hfalse
          cases hfalse
    | false =>
      rw [if_neg (by simp), ih]
      constructor
      · rintro ⟨hm, hmark, hafter⟩
        refine ⟨by omega, hmark, fun j hj hj' => ?_⟩
        by_cases he : j = n
        · rw [he, hn]
        · exact hafter j hj (by omega)
      · rintro ⟨hm, hmark, hafter⟩
        have hne : m ≠ n := by
          rintro rfl
          rw [hn] at hmark
          cases hmark
        exact ⟨by omega, hmark, fun j hj hj' => hafter j hj (by omega)⟩

/-- One of the first `n` glyphs has the mark at an index rewritten. -/
def isRewritten (marks commits : Nat → Bool) (n i : Nat) : Bool :=
  (List.range n).any fun m => commits m && lastMark marks m == some i

theorem isRewritten_succ (marks commits : Nat → Bool) (n i : Nat) :
    isRewritten marks commits (n + 1) i =
      (isRewritten marks commits n i || (commits n && lastMark marks n == some i)) := by
  simp [isRewritten, List.range_succ]

theorem isRewritten_eq_true {marks commits : Nat → Bool} {n i : Nat} :
    isRewritten marks commits n i = true ↔
      ∃ m, m < n ∧ commits m = true ∧ lastMark marks m = some i := by
  simp [isRewritten]

theorem foldl_markGlyph (n : Nat) (mark : Bool) (h : Head) :
    (if mark then [Action.markGlyph] else []).foldl (t.perform n) h =
      { h with mark := if mark then some n else h.mark } := by
  cases mark <;> rfl

/-- What the head has marked and rewritten after `n` glyphs, if no mark is rewritten twice. -/
theorem headAfter_of_substituteMarked {table : String} {state : Nat → String}
    {marks commits : Nat → Bool} (hstart : state 0 = start)
    (hread : ∀ n g, glyphs[n]? = some g → t.reaction (state n) g =
      (state (n + 1), (if commits n then [.substituteMarked table] else []) ++
        if marks n then [.markGlyph] else []))
    (honce : ∀ m n, m < n → commits m = true → commits n = true →
      lastMark marks m ≠ lastMark marks n) {n : Nat} (hn : n ≤ glyphs.length) :
    (t.headAfter glyphs n).state = state n ∧
      (t.headAfter glyphs n).mark = lastMark marks n ∧
      ∀ j, (t.headAfter glyphs n).glyphs[j]? = glyphs[j]?.map fun g =>
        if isRewritten marks commits n j then t.replace table g else g := by
  induction n with
  | zero => exact ⟨hstart.symm, rfl, by simp [headAfter, isRewritten]⟩
  | succ n ih =>
    obtain ⟨hs, hm, hj⟩ := ih (by omega)
    have hg : glyphs[n]? = some glyphs[n] := List.getElem?_eq_getElem (by omega)
    rw [headAfter_read hg, hs, hread n _ hg, List.foldl_append, foldl_markGlyph]
    refine ⟨rfl, ?_, ?_⟩
    · cases hc : commits n with
      | false => simp [lastMark, hm]
      | true => cases hl : lastMark marks n <;> simp [lastMark, perform, hm, hl]
    · intro j
      rw [isRewritten_succ]
      cases hc : commits n with
      | false => simp [hj]
      | true =>
        cases hl : lastMark marks n with
        | none => simp [perform, hm, hl, hj]
        | some k =>
          -- the mark has not been rewritten before
          have hk : isRewritten marks commits n k = false := by
            rw [← Bool.not_eq_true, isRewritten_eq_true]
            rintro ⟨m, hmn, hcm, hlm⟩
            exact honce m n hmn hcm hc (hlm.trans hl.symm)
          by_cases he : k = j
          · subst he
            simp [perform, hm, hl, hj, hk]
          · simp [perform, hm, hl, hj, he]

/-- A table that marks some glyphs and rewrites the marked one later, no mark being rewritten
twice. -/
theorem run_of_substituteMarked (table : String) (state : Nat → String)
    (marks commits : Nat → Bool) (hstart : state 0 = start)
    (hread : ∀ n g, glyphs[n]? = some g → t.reaction (state n) g =
      (state (n + 1), (if commits n then [.substituteMarked table] else []) ++
        if marks n then [.markGlyph] else []))
    (honce : ∀ m n, m < n → commits m = true → commits n = true →
      lastMark marks m ≠ lastMark marks n) :
    t.run glyphs = glyphs.mapIdx fun i g =>
      if isRewritten marks commits glyphs.length i then t.replace table g else g := by
  apply List.ext_getElem?
  intro i
  rw [run, (headAfter_of_substituteMarked hstart hread honce (Nat.le_refl _)).2.2,
    List.getElem?_mapIdx]

/-- A table in which every mark is rewritten, if at all, at the next glyph. -/
theorem run_of_substituteMarked_next (table : String) (state : Nat → String)
    (marks commits : Nat → Bool) (hstart : state 0 = start)
    (hread : ∀ n g, glyphs[n]? = some g → t.reaction (state n) g =
      (state (n + 1), (if commits n then [.substituteMarked table] else []) ++
        if marks n then [.markGlyph] else []))
    (hnext : ∀ n, commits n = true → ∃ k, n = k + 1 ∧ marks k = true)
    (hin : ∀ n, commits n = true → n < glyphs.length) :
    t.run glyphs = glyphs.mapIdx fun i g => if commits (i + 1) then t.replace table g else g := by
  have hlast : ∀ n, commits n = true → ∃ k, n = k + 1 ∧ lastMark marks n = some k := by
    intro n hn
    obtain ⟨k, rfl, hk⟩ := hnext n hn
    exact ⟨k, rfl, by simp [lastMark, hk]⟩
  rw [run_of_substituteMarked table state marks commits hstart hread]
  · congr 1
    funext i g
    have hi : isRewritten marks commits glyphs.length i = commits (i + 1) := by
      rw [Bool.eq_iff_iff, isRewritten_eq_true]
      constructor
      · rintro ⟨m, _, hc, hl⟩
        obtain ⟨k, rfl, hk⟩ := hlast m hc
        rwa [← Option.some.inj (hk.symm.trans hl)]
      · intro hc
        obtain ⟨k, hk, hl⟩ := hlast (i + 1) hc
        exact ⟨i + 1, hin (i + 1) hc, hc, by rw [hl, Nat.succ.inj hk]⟩
    rw [hi]
  · intro m n hmn hm hn he
    obtain ⟨k, rfl, hk⟩ := hlast m hm
    obtain ⟨l, rfl, hl⟩ := hlast n hn
    have hkl : k = l := Option.some.inj ((hk.symm.trans he).trans hl)
    omega

section Provenance

variable {P : Glyph → Prop}

theorem replace_provenance (hs : ∀ s ∈ t.substitutions, ∀ e ∈ s.entries, P e.2)
    (table : String) {g : Glyph} (hg : P g) : P (t.replace table g) := by
  unfold replace
  cases hf : t.substitutions.find? fun s => s.name == table with
  | none => exact hg
  | some s =>
    cases hl : s.entries.lookup g with
    | none => simpa [hl] using hg
    | some r =>
      have hp := hs s (List.mem_of_find?_eq_some hf) (g, r) (mem_of_lookup hl)
      simpa [hl] using hp

theorem forall_mem_modify {f : Glyph → Glyph} (hf : ∀ g, P g → P (f g)) {xs : List Glyph}
    (hx : ∀ g ∈ xs, P g) (i : Nat) : ∀ g ∈ xs.modify i f, P g := by
  intro g hg
  obtain ⟨j, hj⟩ := List.mem_iff_getElem?.mp hg
  rw [List.getElem?_modify] at hj
  obtain ⟨x, hxj, rfl⟩ := Option.map_eq_some_iff.mp hj
  have hp := hx x (List.mem_of_getElem? hxj)
  split
  next => exact hf x hp
  next => exact hp

theorem perform_provenance (hs : ∀ s ∈ t.substitutions, ∀ e ∈ s.entries, P e.2) {h : Head}
    (hg : ∀ g ∈ h.glyphs, P g) (i : Nat) (a : Action) : ∀ g ∈ (t.perform i h a).glyphs, P g := by
  cases a with
  | substituteCurrent table =>
    exact forall_mem_modify (P := P) (fun _ hp => replace_provenance hs table hp) hg i
  | substituteMarked table =>
    cases hm : h.mark with
    | none => simpa [perform, hm] using hg
    | some m =>
      have hr := forall_mem_modify (P := P) (fun _ hp => replace_provenance hs table hp) hg m
      simpa [perform, hm] using hr
  | markGlyph => exact hg
  | markFirst => exact hg
  | markLast => exact hg
  | rearrange verb => exact hg

theorem step_provenance (hs : ∀ s ∈ t.substitutions, ∀ e ∈ s.entries, P e.2) {h : Head}
    (hg : ∀ g ∈ h.glyphs, P g) (i : Nat) : ∀ g ∈ (t.step h i).glyphs, P g := by
  unfold step
  split
  next tr _ =>
    have hf : ∀ (actions : List Action) (h : Head), (∀ g ∈ h.glyphs, P g) →
        ∀ g ∈ (actions.foldl (t.perform i) h).glyphs, P g := by
      intro actions
      induction actions with
      | nil => exact fun _ hg => hg
      | cons a rest ih => exact fun h hg => ih _ (perform_provenance hs hg i a)
    exact hf tr.actions h hg
  next => exact hg

/-- A run brings in no glyph but replacements. -/
theorem run_provenance (hs : ∀ s ∈ t.substitutions, ∀ e ∈ s.entries, P e.2)
    (hg : ∀ g ∈ glyphs, P g) : ∀ g ∈ t.run glyphs, P g :=
  headAfter_induction (P := fun _ h => ∀ g ∈ h.glyphs, P g) hg
    (fun n _ _ hh => step_provenance hs hh n) glyphs.length (Nat.le_refl _)

end Provenance

section Unchanged

theorem replace_of_no_substitutions (hs : t.substitutions = []) (table : String) :
    t.replace table = id := by
  funext g
  simp [replace, hs]

theorem glyphs_perform (hs : t.substitutions = []) (i : Nat) (h : Head) (a : Action) :
    (t.perform i h a).glyphs = h.glyphs := by
  cases a with
  | markGlyph => rfl
  | substituteCurrent table => simp [perform, replace_of_no_substitutions hs, List.modify_id]
  | substituteMarked table =>
    cases hm : h.mark <;> simp [perform, hm, replace_of_no_substitutions hs, List.modify_id]
  | markFirst => rfl
  | markLast => rfl
  | rearrange verb => rfl

theorem glyphs_step (hs : t.substitutions = []) (h : Head) (i : Nat) :
    (t.step h i).glyphs = h.glyphs := by
  unfold step
  split
  next tr _ =>
    exact List.foldlRecOn tr.actions (t.perform i) (motive := fun h' => h'.glyphs = h.glyphs) rfl
      fun h' hh a _ => (glyphs_perform hs i h' a).trans hh
  next => rfl

/-- A table without substitutions leaves the glyphs as they are. -/
theorem run_of_no_substitutions (hs : t.substitutions = []) (glyphs : List Glyph) :
    t.run glyphs = glyphs :=
  headAfter_induction (P := fun _ h => h.glyphs = glyphs) rfl
    (fun n h _ hh => (glyphs_step hs h n).trans hh) glyphs.length (Nat.le_refl _)

end Unchanged

end StateTable

end Metamorphosis
