import Metamorphosis.Source.Reader

namespace Metamorphosis

/-- Of two writings, each with something after it, that are the same text, the things written are
the same, and so is what comes after them. -/
def Legible {α β : Type} (P : α → Prop) (Follows : List β → Prop) (write : α → List β) : Prop :=
  ∀ a a' rest rest', P a → P a' → Follows rest → Follows rest' →
    write a ++ rest = write a' ++ rest' → a = a' ∧ rest = rest'

section Lists

variable {α β : Type} {P : α → Prop} {Follows More : List β → Prop} {write : α → List β}

/-- What passes a test ends at the first element that does not. -/
theorem span_append {test : β → Bool} {xs rest : List β} (hxs : ∀ x ∈ xs, test x = true)
    (hrest : ∀ x ∈ rest.head?, test x = false) :
    (xs ++ rest).takeWhile test = xs ∧ (xs ++ rest).dropWhile test = rest := by
  rw [List.takeWhile_append_of_pos hxs, List.dropWhile_append_of_pos hxs]
  cases rest with
  | nil => exact ⟨List.append_nil xs, rfl⟩
  | cons x rest =>
    have hx : ¬test x = true := by
      rw [hrest x rfl]
      exact Bool.false_ne_true
    rw [List.takeWhile_cons_of_neg hx, List.dropWhile_cons_of_neg hx, List.append_nil]
    exact ⟨rfl, rfl⟩

/-- What passes a test is told from what follows by the first element that does not. -/
theorem legible_span (test : β → Bool) :
    Legible (fun xs => ∀ x ∈ xs, test x = true) (fun rest => ∀ x ∈ rest.head?, test x = false)
      id := by
  intro xs ys rest rest' hxs hys hrest hrest' h
  have he : xs = ys := by
    rw [← (span_append hxs hrest).1, ← (span_append hys hrest').1]
    exact congrArg (List.takeWhile test) h
  subst he
  exact ⟨rfl, List.append_cancel_left h⟩

/-- A list is legible if its elements are, if each of them may be followed by the next, and if what
follows the list does not look like another one. -/
theorem Legible.flatMap (hw : Legible P More write) (hend : ∀ rest, Follows rest → More rest)
    (hnext : ∀ a rest, P a → More (write a ++ rest))
    (hstop : ∀ a rest, P a → ¬Follows (write a ++ rest)) :
    Legible (fun xs => ∀ x ∈ xs, P x) Follows (List.flatMap write) := by
  have hmore : ∀ (xs : List α) rest, (∀ x ∈ xs, P x) → Follows rest →
      More (xs.flatMap write ++ rest) := by
    intro xs rest hxs hrest
    cases xs with
    | nil => exact hend rest hrest
    | cons x xs =>
      rw [List.flatMap_cons, List.append_assoc]
      exact hnext x _ (hxs x List.mem_cons_self)
  intro xs
  induction xs with
  | nil =>
    intro ys rest rest' _ hys hrest _ h
    cases ys with
    | nil => exact ⟨rfl, h⟩
    | cons y ys =>
      rw [List.flatMap_nil, List.nil_append, List.flatMap_cons, List.append_assoc] at h
      exact absurd (h ▸ hrest) (hstop y _ (hys y List.mem_cons_self))
  | cons x xs ih =>
    intro ys rest rest' hxs hys hrest hrest' h
    obtain ⟨hx, hxs⟩ := List.forall_mem_cons.mp hxs
    cases ys with
    | nil =>
      rw [List.flatMap_nil, List.nil_append, List.flatMap_cons, List.append_assoc] at h
      exact absurd (h ▸ hrest') (hstop x _ hx)
    | cons y ys =>
      obtain ⟨hy, hys⟩ := List.forall_mem_cons.mp hys
      rw [List.flatMap_cons, List.flatMap_cons, List.append_assoc, List.append_assoc] at h
      obtain ⟨hxy, h⟩ := hw x y _ _ hx hy (hmore xs rest hxs hrest) (hmore ys rest' hys hrest') h
      obtain ⟨hrests, h⟩ := ih ys rest rest' hxs hys hrest hrest' h
      exact ⟨by rw [hxy, hrests], h⟩

theorem eq_of_map_eq {γ : Type} {f : α → γ} (hf : ∀ a a', P a → P a' → f a = f a' → a = a')
    {xs ys : List α} (hxs : ∀ x ∈ xs, P x) (hys : ∀ y ∈ ys, P y) (h : xs.map f = ys.map f) :
    xs = ys := by
  induction xs generalizing ys with
  | nil => exact (List.map_eq_nil_iff.mp h.symm).symm
  | cons x xs ih =>
    obtain ⟨y, ys', rfl, hxy, h⟩ := List.map_eq_cons_iff.mp h.symm
    obtain ⟨hx, hxs⟩ := List.forall_mem_cons.mp hxs
    obtain ⟨hy, hys⟩ := List.forall_mem_cons.mp hys
    rw [hf x y hx hy hxy.symm, ih hxs hys h.symm]

end Lists

/-- A name that can be told from what stands around it: letters, digits, points and underscores. -/
def IsName (name : String) : Prop :=
  name.toList ≠ [] ∧ ∀ c ∈ name.toList, isNameChar c = true

instance : DecidablePred IsName := fun name =>
  decidable_of_iff (name.toList ≠ [] ∧ name.toList.all isNameChar = true)
    (and_congr_right fun _ => List.all_eq_true)

/-- A text that does not go on with a name. -/
def AfterName (rest : List Char) : Prop :=
  ∀ c ∈ rest.head?, isNameChar c = false

theorem legible_name : Legible IsName AfterName String.toList := by
  intro name name' rest rest' hname hname' hrest hrest' h
  obtain ⟨he, hrests⟩ :=
    legible_span isNameChar name.toList name'.toList rest rest' hname.2 hname'.2 hrest hrest' h
  exact ⟨String.toList_injective he, hrests⟩

/-- A text that ends the name before it. -/
def IsMark (mark : String) : Prop :=
  mark.toList ≠ [] ∧ AfterName mark.toList

instance : DecidablePred IsMark := fun mark =>
  decidable_of_iff (mark.toList ≠ [] ∧ mark.toList.head?.any isNameChar = false)
    (and_congr_right fun _ => Option.any_eq_false isNameChar mark.toList.head?)

theorem IsMark.afterName {mark : String} (h : IsMark mark) (rest : List Char) :
    AfterName (mark.toList ++ rest) := by
  obtain ⟨hne, hafter⟩ := h
  obtain ⟨c, cs, hcs⟩ := List.exists_cons_of_ne_nil hne
  rw [hcs] at hafter ⊢
  exact hafter

/-- A name before a mark is told from what comes after the mark. -/
theorem name_mark_inj {mark name name' rest rest' : String} (hmark : IsMark mark)
    (hname : IsName name) (hname' : IsName name')
    (h : name ++ mark ++ rest = name' ++ mark ++ rest') : name = name' ∧ rest = rest' := by
  have hchars := congrArg String.toList h
  simp only [String.toList_append, List.append_assoc] at hchars
  obtain ⟨he, hrest⟩ := legible_name name name' _ _ hname hname' (hmark.afterName _)
    (hmark.afterName _) hchars
  exact ⟨he, String.toList_injective (List.append_cancel_left hrest)⟩

section Joined

variable {mark : String}

theorem toList_intercalate_cons (mark x : String) (xs : List String) :
    (mark.intercalate (x :: xs)).toList =
      x.toList ++ xs.flatMap fun y => mark.toList ++ y.toList := by
  induction xs generalizing x with
  | nil => simp
  | cons y ys ih => simp [String.intercalate_cons_cons, ih]

/-- Names, each of them behind a mark. -/
theorem legible_marked (hmark : IsMark mark) :
    Legible (fun names => ∀ name ∈ names, IsName name) (· = [])
      (List.flatMap fun name : String => mark.toList ++ name.toList) := by
  have hone : Legible IsName AfterName fun name => mark.toList ++ name.toList := by
    intro name name' rest rest' hn hn' hrest hrest' h
    rw [List.append_assoc, List.append_assoc] at h
    exact legible_name name name' rest rest' hn hn' hrest hrest' (List.append_cancel_left h)
  apply hone.flatMap
  · rintro rest rfl c hc
    cases hc
  · intro name rest _
    rw [List.append_assoc]
    exact hmark.afterName _
  · intro name rest _ h
    exact hmark.1 (List.append_eq_nil_iff.mp (List.append_eq_nil_iff.mp h).1).1

/-- Names with a mark between them are told from the text. -/
theorem joined_inj (hmark : IsMark mark) {names names' : List String}
    (hnames : ∀ name ∈ names, IsName name) (hnames' : ∀ name ∈ names', IsName name)
    (h : mark.intercalate names = mark.intercalate names') : names = names' := by
  have hafter : ∀ names : List String,
      AfterName (names.flatMap fun name => mark.toList ++ name.toList) := by
    intro names
    cases names with
    | nil =>
      intro c hc
      cases hc
    | cons name names =>
      rw [List.flatMap_cons, List.append_assoc]
      exact hmark.afterName _
  have hempty : ∀ name names, IsName name → (mark.intercalate (name :: names)).toList ≠ [] := by
    intro name names hname he
    rw [toList_intercalate_cons] at he
    exact hname.1 (List.append_eq_nil_iff.mp he).1
  have hchars := congrArg String.toList h
  cases names with
  | nil =>
    cases names' with
    | nil => rfl
    | cons name' names' =>
      exact absurd hchars.symm (hempty name' names' (hnames' name' List.mem_cons_self))
  | cons name names =>
    obtain ⟨hname, hnames⟩ := List.forall_mem_cons.mp hnames
    cases names' with
    | nil => exact absurd hchars (hempty name names hname)
    | cons name' names' =>
      obtain ⟨hname', hnames'⟩ := List.forall_mem_cons.mp hnames'
      rw [toList_intercalate_cons, toList_intercalate_cons] at hchars
      obtain ⟨he, hchars⟩ := legible_name name name' _ _ hname hname' (hafter names)
        (hafter names') hchars
      have hrest := legible_marked hmark names names' [] [] hnames hnames' rfl rfl
        (congrArg (· ++ []) hchars)
      rw [he, hrest.1]

end Joined

end Metamorphosis
