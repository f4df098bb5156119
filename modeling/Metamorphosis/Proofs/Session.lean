import Metamorphosis.Proofs.Outcome
import Metamorphosis.Proofs.Replacements
import Metamorphosis.RuleGroup.Subtables

namespace Metamorphosis

namespace CompileM

variable {α β : Type}

@[simp] theorem exec_pure (a : α) (s : Session) : exec (pure a) s = (.ok a, s) := rfl

theorem exec_pure_ok {a b : α} {s s' : Session} (h : exec (pure a) s = (.ok b, s')) : a = b :=
  Except.ok.inj (Prod.mk.inj h).1

theorem exec_bind (x : CompileM α) (f : α → CompileM β) (s : Session) :
    exec (x >>= f) s =
      match exec x s with
      | (.ok a, s') => exec (f a) s'
      | (.error e, s') => (.error e, s') := by
  unfold exec
  rw [ExceptT.run_bind, StateT.run_bind]
  cases x.run.run s with
  | mk result s' => cases result <;> rfl

/-- An action in front of others is done first. -/
theorem exec_bind_of_ok {x : CompileM α} {s s' : Session} {a : α}
    (h : exec x s = (.ok a, s')) (f : α → CompileM β) : exec (x >>= f) s = exec (f a) s' := by
  rw [exec_bind, h]

/-- Nothing follows an action that fails. -/
theorem exec_bind_of_error {x : CompileM α} {s s' : Session} {e : CompileError}
    (h : exec x s = (.error e, s')) (f : α → CompileM β) :
    exec (x >>= f) s = (.error e, s') := by
  rw [exec_bind, h]

theorem exec_bind_ok {x : CompileM α} {f : α → CompileM β} {s s'' : Session} {b : β}
    (h : exec (x >>= f) s = (.ok b, s'')) :
    ∃ a s', exec x s = (.ok a, s') ∧ exec (f a) s' = (.ok b, s'') := by
  rw [exec_bind] at h
  cases hx : exec x s with
  | mk result s' =>
    rw [hx] at h
    cases result with
    | error e => simp at h
    | ok a => exact ⟨a, s', rfl, h⟩

theorem exec_bind_error {x : CompileM α} {f : α → CompileM β} {s s'' : Session} {e : CompileError}
    (h : exec (x >>= f) s = (.error e, s'')) :
    exec x s = (.error e, s'') ∨
      ∃ a s', exec x s = (.ok a, s') ∧ exec (f a) s' = (.error e, s'') := by
  rw [exec_bind] at h
  cases hx : exec x s with
  | mk result s' =>
    rw [hx] at h
    cases result with
    | error e' =>
      obtain ⟨he, rfl⟩ := Prod.mk.inj h
      exact Or.inl (by rw [Except.error.inj he])
    | ok a => exact Or.inr ⟨a, s', rfl, h⟩

@[simp] theorem exec_get (s : Session) : exec (get : CompileM Session) s = (.ok s, s) := rfl

@[simp] theorem exec_report (event : Event) (s : Session) :
    exec (report event) s = (.ok (), { s with events := s.events.push event }) := rfl

@[simp] theorem exec_reportAll (events : List Event) (s : Session) :
    exec (reportAll events) s = (.ok (), { s with events := s.events ++ events.toArray }) := rfl

@[simp] theorem exec_atLine_ok (line : Nat) (a : α) (s : Session) :
    exec (atLine line (.ok a)) s = (.ok a, s) := rfl

theorem exec_atLine_inv {line : Nat} {result : Except RuleFault α} {s s' : Session} {a : α}
    (h : exec (atLine line result) s = (.ok a, s')) : result = .ok a ∧ s' = s := by
  cases result with
  | error fault => cases h
  | ok b =>
    obtain ⟨hb, hs⟩ := Prod.mk.inj h
    exact ⟨congrArg Except.ok (Except.ok.inj hb), hs.symm⟩

theorem exec_inTable_inv {result : Except TableFault α} {s s' : Session} {a : α}
    (h : exec (inTable result) s = (.ok a, s')) : result = .ok a ∧ s' = s := by
  cases result with
  | error fault => cases h
  | ok b =>
    obtain ⟨hb, hs⟩ := Prod.mk.inj h
    exact ⟨congrArg Except.ok (Except.ok.inj hb), hs.symm⟩

/-- A request is answered with the name of its code, and the arena that gave it is kept. -/
theorem exec_temporary (key : TempKey) (s : Session) :
    exec (temporary key) s =
      match s.arena.request key with
      | .ok (code, after) =>
        (.ok (toString code),
          { s with
            arena := after
            events := if (s.arena.code? key).isNone then s.events.push (.temporary code key)
              else s.events })
      | .error fault => (.error (.failed fault), s) := by
  unfold temporary
  rw [exec_bind_of_ok (exec_get s)]
  dsimp only
  cases s.arena.request key with
  | error fault => rfl
  | ok result => cases (s.arena.code? key).isNone <;> rfl

/-- What follows a merge is given the first replacement of every target. -/
theorem exec_merge_bind_ok {description : String} {pairs : List (Glyph × Glyph)}
    {f : List (Glyph × Glyph) → CompileM β} {s s' : Session} {b : β}
    (h : exec (merge description pairs >>= f) s = (.ok b, s')) :
    ∃ m, exec (f (firstReplacements pairs)) m = (.ok b, s') := by
  obtain ⟨entries, m, hm, h⟩ := exec_bind_ok h
  cases hm
  rw [Merged.entries_ofPairs] at h
  exact ⟨_, h⟩

/-- Actions one after another have a result each, in some session on the way. -/
theorem exec_mapM_forall₂ {f : α → CompileM β} {xs : List α} {ys : List β} {s s' : Session}
    (h : exec (xs.mapM f) s = (.ok ys, s')) :
    List.Forall₂ (fun x y => ∃ before after, exec (f x) before = (.ok y, after)) xs ys := by
  induction xs generalizing ys s s' with
  | nil =>
    rw [← exec_pure_ok h]
    exact .nil
  | cons x xs ih =>
    rw [List.mapM_cons] at h
    obtain ⟨first, m, hfirst, h⟩ := exec_bind_ok h
    obtain ⟨rest, m', hrest, h⟩ := exec_bind_ok h
    rw [← exec_pure_ok h]
    exact .cons ⟨s, m, hfirst⟩ (ih hrest)

/-- Every result is that of an element in some session on the way. -/
theorem exec_mapM_ok {f : α → CompileM β} {xs : List α} {ys : List β} {s s' : Session}
    (h : exec (xs.mapM f) s = (.ok ys, s')) :
    ∀ y ∈ ys, ∃ x ∈ xs, ∃ before after, exec (f x) before = (.ok y, after) :=
  forall₂_of_mem_right (exec_mapM_forall₂ h)

/-- Every element has a result. -/
theorem exec_mapM_all {f : α → CompileM β} {xs : List α} {ys : List β} {s s' : Session}
    (h : exec (xs.mapM f) s = (.ok ys, s')) :
    ∀ x ∈ xs, ∃ y ∈ ys, ∃ before after, exec (f x) before = (.ok y, after) :=
  forall₂_of_mem_left (exec_mapM_forall₂ h)

/-- The action gives this result in every session. -/
def Returns (x : CompileM α) (a : α) : Prop :=
  ∀ s, ∃ s', exec x s = (.ok a, s')

namespace Returns

theorem pure (a : α) : Returns (Pure.pure a) a :=
  fun s => ⟨s, rfl⟩

theorem bind {x : CompileM α} {f : α → CompileM β} {a : α} {b : β} (hx : Returns x a)
    (hf : Returns (f a) b) : Returns (x >>= f) b := by
  intro s
  obtain ⟨m, hm⟩ := hx s
  obtain ⟨s', hs⟩ := hf m
  exact ⟨s', by rw [exec_bind_of_ok hm, hs]⟩

/-- What the session holds does not matter if every continuation gives the same. -/
theorem get_bind {f : Session → CompileM β} {b : β} (hf : ∀ s, Returns (f s) b) :
    Returns (get >>= f) b := by
  intro s
  obtain ⟨s', hs⟩ := hf s s
  exact ⟨s', by rw [exec_bind_of_ok (exec_get s), hs]⟩

theorem modify (f : Session → Session) : Returns (modify f) () :=
  fun s => ⟨f s, rfl⟩

theorem report (event : Event) : Returns (report event) () :=
  modify _

theorem reportAll (events : List Event) : Returns (reportAll events) () :=
  modify _

theorem merge (description : String) (pairs : List (Glyph × Glyph)) :
    Returns (merge description pairs) (firstReplacements pairs) := by
  rw [← Merged.entries_ofPairs]
  exact bind (reportAll _) (pure _)

theorem announce (subtable : Subtable) : Returns (announce subtable) subtable :=
  get_bind fun _ => bind (report _) (bind (modify _) (pure subtable))

theorem mapM {f : α → CompileM β} {xs : List α} {ys : List β}
    (h : List.Forall₂ (fun x y => Returns (f x) y) xs ys) : Returns (xs.mapM f) ys := by
  induction h with
  | nil => exact pure []
  | cons hx _ ih =>
    rw [List.mapM_cons]
    exact bind hx (bind ih (pure _))

/-- Subtables are announced as they are. -/
theorem announceAll (made : List Subtable) : Returns (made.mapM CompileM.announce) made :=
  mapM (List.forall₂_same.mpr fun subtable _ => announce subtable)

theorem announced {group : RuleGroup} {made : List Subtable} (h : Returns group.subtables made) :
    Returns group.announced made :=
  bind h (announceAll made)

/-- The subtables of rules are those of their groups. -/
theorem allSubtables {rules : List GlyphRule} {made : List (List Subtable)}
    (h : List.Forall₂ (fun group made => Returns group.subtables made) (RuleGroup.ofRules rules)
      made) : Returns (GlyphRule.allSubtables rules) made.flatten :=
  bind (report _) (bind (mapM (h.imp fun _ _ hg => announced hg)) (pure _))

end Returns

/-- The action fails in every session. -/
def Fails (x : CompileM α) : Prop :=
  ∀ s, ∃ e s', exec x s = (.error e, s')

theorem Returns.not_fails {x : CompileM α} {a : α} (hx : Returns x a) : ¬Fails x := by
  intro hf
  obtain ⟨s', hs⟩ := hx (Session.fresh defaultTempBase)
  obtain ⟨e, s'', he⟩ := hf (Session.fresh defaultTempBase)
  rw [hs] at he
  cases he

theorem Fails.throw (e : CompileError) : Fails (throw e : CompileM α) :=
  fun s => ⟨e, s, rfl⟩

theorem Fails.bind {x : CompileM α} (hx : Fails x) (f : α → CompileM β) : Fails (x >>= f) := by
  intro s
  obtain ⟨e, s', hs⟩ := hx s
  exact ⟨e, s', exec_bind_of_error hs f⟩

theorem Returns.bind_fails {x : CompileM α} {f : α → CompileM β} {a : α} (hx : Returns x a)
    (hf : Fails (f a)) : Fails (x >>= f) := by
  intro s
  obtain ⟨m, hm⟩ := hx s
  obtain ⟨e, s', hs⟩ := hf m
  refine ⟨e, s', ?_⟩
  rw [exec_bind_of_ok hm, hs]

/-- Whatever the sessions, both actions give the same result or both fail. -/
def Agree (x y : CompileM α) : Prop :=
  (∃ a, Returns x a ∧ Returns y a) ∨ (Fails x ∧ Fails y)

namespace Agree

theorem of_returns {x y : CompileM α} {a : α} (hx : Returns x a) (hy : Returns y a) : Agree x y :=
  Or.inl ⟨a, hx, hy⟩

theorem pure (a : α) : Agree (Pure.pure a) (Pure.pure a) :=
  of_returns (.pure a) (.pure a)

theorem throw (e e' : CompileError) : Agree (throw e : CompileM α) (MonadExcept.throw e') :=
  Or.inr ⟨.throw e, .throw e'⟩

theorem bind {x y : CompileM α} {f g : α → CompileM β} (hx : Agree x y)
    (hf : ∀ a, Agree (f a) (g a)) : Agree (x >>= f) (y >>= g) := by
  rcases hx with ⟨a, hx, hy⟩ | ⟨hx, hy⟩
  · rcases hf a with ⟨b, hfa, hga⟩ | ⟨hfa, hga⟩
    · exact of_returns (hx.bind hfa) (hy.bind hga)
    · exact Or.inr ⟨hx.bind_fails hfa, hy.bind_fails hga⟩
  · exact Or.inr ⟨hx.bind f, hy.bind g⟩

theorem mapM {f g : α → CompileM β} {xs ys : List α}
    (h : List.Forall₂ (fun x y => Agree (f x) (g y)) xs ys) : Agree (xs.mapM f) (ys.mapM g) := by
  induction h with
  | nil => exact pure []
  | cons hx _ ih =>
    rw [List.mapM_cons, List.mapM_cons]
    exact bind hx fun _ => bind ih fun _ => pure _

/-- Faults may differ, but results may not. -/
theorem inTable {result result' : Except TableFault α}
    (h : ∀ a, result = .ok a ↔ result' = .ok a) :
    Agree (CompileM.inTable result) (CompileM.inTable result') := by
  cases result with
  | ok a =>
    rw [(h a).mp rfl]
    exact pure a
  | error fault =>
    cases result' with
    | ok a => cases (h a).mpr rfl
    | error fault' => exact throw _ _

theorem merge (description : String) {pairs pairs' : List (Glyph × Glyph)}
    (h : firstReplacements pairs = firstReplacements pairs') :
    Agree (CompileM.merge description pairs) (CompileM.merge description pairs') :=
  of_returns (.merge description pairs) (h ▸ .merge description pairs')

theorem announced {group group' : RuleGroup} (h : Agree group.subtables group'.subtables) :
    Agree group.announced group'.announced :=
  bind h fun made => of_returns (.announceAll made) (.announceAll made)

end Agree

theorem exec_announced_ok {group : RuleGroup} {made : List Subtable} {s s' : Session}
    (h : exec group.announced s = (.ok made, s')) :
    ∃ m, exec group.subtables s = (.ok made, m) := by
  obtain ⟨made', m, hm, h⟩ := exec_bind_ok h
  obtain ⟨m', hm'⟩ := Returns.announceAll made' m
  rw [hm'] at h
  obtain ⟨he, _⟩ := Prod.mk.inj h
  exact ⟨m, by rw [hm, Except.ok.inj he]⟩

/-- Every subtable of glyph rules is one of a group of them. -/
theorem exec_allSubtables_ok {rules : List GlyphRule} {made : List Subtable} {s s' : Session}
    (h : exec (GlyphRule.allSubtables rules) s = (.ok made, s')) :
    ∀ sub ∈ made, ∃ group ∈ RuleGroup.ofRules rules, ∃ ofGroup before after, sub ∈ ofGroup ∧
      exec group.subtables before = (.ok ofGroup, after) := by
  obtain ⟨_, m, _, h⟩ := exec_bind_ok h
  obtain ⟨perGroup, m', hgroups, h⟩ := exec_bind_ok h
  rw [← exec_pure_ok h]
  intro sub hsub
  obtain ⟨ofGroup, hmem, hsub⟩ := List.mem_flatten.mp hsub
  obtain ⟨group, hgroup, before, after, hannounced⟩ := exec_mapM_ok hgroups ofGroup hmem
  obtain ⟨after', hmade⟩ := exec_announced_ok hannounced
  exact ⟨group, hgroup, ofGroup, before, after', hsub, hmade⟩

/-- The subtables of every group of glyph rules are there. -/
theorem exec_allSubtables_all {rules : List GlyphRule} {made : List Subtable} {s s' : Session}
    (h : exec (GlyphRule.allSubtables rules) s = (.ok made, s')) :
    ∀ group ∈ RuleGroup.ofRules rules, ∃ ofGroup before after, (∀ sub ∈ ofGroup, sub ∈ made) ∧
      exec group.subtables before = (.ok ofGroup, after) := by
  obtain ⟨_, m, _, h⟩ := exec_bind_ok h
  obtain ⟨perGroup, m', hgroups, h⟩ := exec_bind_ok h
  rw [← exec_pure_ok h]
  intro group hgroup
  obtain ⟨ofGroup, hmem, before, after, hannounced⟩ := exec_mapM_all hgroups group hgroup
  obtain ⟨after', hmade⟩ := exec_announced_ok hannounced
  exact ⟨ofGroup, before, after', fun sub hsub => List.mem_flatten.mpr ⟨ofGroup, hmem, hsub⟩, hmade⟩

end CompileM

end Metamorphosis
